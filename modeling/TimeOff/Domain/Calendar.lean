import TimeOff.Domain.Periods

/-!
# The ends of the calendar

A `date` holds the days of the years 1 to 9999, and arithmetic that leaves them
raises. `Calendar.containing` and `Calendar.iterPeriods` are the planner's
functions with every computed date checked (`held`), and with the loop as it
runs: it has fuel, and no result when the fuel is spent before the loop ends.

They are a second copy of `containing` and `iterPeriods` in `Domain.Periods`,
which the services use; the two are linked in both directions. What the copy
computes is what the functions without ends compute (`ok_of_containing`), and
away from the ends it computes it always (`containing_eq`, `iterPeriods_eq`). So
all facts about periods are proved once, without ends, and hold here where a
period exists.

The periods of a schedule tile the days from the first period that begins in the
calendar on, up to the last year (`periods_tile`): a block of days that reaches
back past the first day there is has no period, and the loop cannot step beyond
the last. From January 14 of year 1 on every period begins in the calendar
(`begins_of_le`).
-/

namespace TimeOff

open Gregorian

namespace Calendar

/-- `date.min` -/
def dateMin : Date := ofYmd 1 1 1

/-- `date.max` -/
def dateMax : Date := ofYmd 9999 12 31

/-- A computed date, if `date` can hold it. -/
def held (d : Date) : Option Date := if dateMin ≤ d ∧ d ≤ dateMax then some d else none

/-- `containing`, when it returns. -/
def containing (day : Date) (schedule : Schedule) (payPeriodAnchor : Option Date) :
    Option Period :=
  let blocks (stride : Int) : Option Period := do
    let anchor ← payPeriodAnchor
    let start ← held (anchor.addDays (day.daysSince anchor / stride * stride))
    let finish ← held (start.addDays (stride - 1))
    return ⟨start, finish⟩
  let untilNextMonth (start : Date) : Option Period := do
    let next ← held (nextMonth start)
    let finish ← held (next.addDays (-1))
    return ⟨start, finish⟩
  match schedule with
  | .DAILY => some ⟨day, day⟩
  | .WEEKLY => blocks 7
  | .BIWEEKLY => blocks 14
  | .SEMIMONTHLY =>
    if day.day ≤ 15 then some ⟨day.replaceDay 1, day.replaceDay 15⟩
    else untilNextMonth (day.replaceDay 16)
  | .YEARLY => some ⟨ofYmd day.year 1 1, ofYmd day.year 12 31⟩
  | .MONTHLY => untilNextMonth (day.replaceDay 1)

/-- The loop of `iterPeriods` from `cursor` on; no result when the fuel runs out
before the loop ends. -/
def iterFrom (through : Date) (schedule : Schedule) (payPeriodAnchor : Option Date) :
    Nat → Period → Option (List Period)
  | 0, _ => none
  | fuel + 1, cursor =>
    if cursor.start ≤ through then do
      let day ← held (cursor.finish.addDays 1)
      let next ← containing day schedule payPeriodAnchor
      return cursor :: (← iterFrom through schedule payPeriodAnchor fuel next)
    else some []

/-- `iter_periods`, for at most `fuel` tests of its loop. -/
def iterPeriods (fuel : Nat) (firstDay through : Date) (schedule : Schedule)
    (payPeriodAnchor : Option Date) : Option (List Period) := do
  let cursor ← containing firstDay schedule payPeriodAnchor
  iterFrom through schedule payPeriodAnchor fuel cursor

variable {schedule : Schedule} {anchor day through : Date}

/-- What is held is in the calendar. -/
theorem held_eq_some {d e : Date} : held d = some e ↔ dateMin ≤ d ∧ d ≤ dateMax ∧ e = d := by
  simp only [held]
  split
  · next h => exact ⟨fun he => ⟨h.1, h.2, (Option.some.inj he).symm⟩, fun he => by rw [he.2.2]⟩
  · next h => exact ⟨fun he => absurd he (by simp), fun he => absurd ⟨he.1, he.2.1⟩ h⟩

theorem held_of_le {d : Date} (h₁ : dateMin ≤ d) (h₂ : d ≤ dateMax) : held d = some d :=
  held_eq_some.mpr ⟨h₁, h₂, rfl⟩

/-- A computation that goes on from a held date goes on from the date. -/
theorem of_bind_held {β : Type} {d : Date} {f : Date → Option β} {b : β}
    (h : (held d).bind f = some b) : f d = some b := by
  obtain ⟨e, hheld, hf⟩ := Option.bind_eq_some_iff.mp h
  obtain ⟨-, -, rfl⟩ := held_eq_some.mp hheld
  exact hf

/-- A period that the calendar holds is the period without ends. -/
theorem ok_of_containing {payPeriodAnchor : Option Date} {p : Period}
    (h : containing day schedule payPeriodAnchor = some p) :
    TimeOff.containing day schedule payPeriodAnchor = .ok p := by
  cases schedule with
  | DAILY | YEARLY =>
    cases h
    rfl
  | WEEKLY | BIWEEKLY =>
    obtain ⟨anchor, rfl, h⟩ := Option.bind_eq_some_iff.mp h
    cases of_bind_held (of_bind_held h)
    rfl
  | MONTHLY =>
    cases of_bind_held (of_bind_held h)
    rfl
  | SEMIMONTHLY =>
    simp only [containing] at h
    simp only [TimeOff.containing]
    split at h
    · next hday =>
      rw [if_pos hday]
      cases h
      rfl
    · next hday =>
      rw [if_neg hday]
      cases of_bind_held (of_bind_held h)
      rfl

/-! ## Away from the ends

Where there is room for one more period, no computed date leaves the calendar,
and the checked functions are the ones without ends. -/

/-- The first day of the last year. -/
def lastYear : Date := ofYmd 9999 1 1

/-- The days that have room for a period after them. -/
def december : Date := ofYmd 9999 12 1

/-- A month or the second half of one that begins and ends in the calendar. -/
theorem monthEnd_held {k : Int} (h₁ : 1 ≤ k) (h₂ : k ≤ daysInMonth day.year day.month)
    (hmin : dateMin ≤ ofYmd day.year day.month (daysInMonth day.year day.month))
    (hmax : ofYmd day.year day.month (daysInMonth day.year day.month) < dateMax) :
    (held (nextMonth (day.replaceDay k))).bind (fun next => held (next.addDays (-1)))
      = some (ofYmd day.year day.month (daysInMonth day.year day.month)) := by
  have hfinish := nextMonth_sub_one h₁ h₂
  have hnext := congrArg Date.ordinal hfinish
  rw [Date.ordinal_addDays] at hnext
  have h₃ := Date.le_iff.mp hmin
  have h₄ := Date.lt_iff.mp hmax
  rw [held_of_le (Date.le_iff.mpr (by omega)) (Date.le_iff.mpr (by omega)), Option.bind_some,
    hfinish, held_of_le hmin (le_of_lt hmax)]

/-- A period that begins in the calendar, and not in its last month, is
computed. -/
theorem containing_eq (hmin : dateMin ≤ (periodOf schedule anchor day).start)
    (hmax : day < december) :
    containing day schedule (some anchor) = some (periodOf schedule anchor day) := by
  by_cases hyear : schedule = .YEARLY
  · rw [hyear]
    rfl
  have hmem := mem_periodOf schedule anchor day
  have hshort := @periodOf_short schedule anchor day hyear
  have hstart := Date.le_iff.mp hmem.1
  have hday := Date.lt_iff.mp hmax
  have hend : dateMax.ordinal = december.ordinal + 30 := by decide
  have hlt : (periodOf schedule anchor day).finish < dateMax := Date.lt_iff.mpr (by omega)
  have hle : (periodOf schedule anchor day).start ≤ (periodOf schedule anchor day).finish :=
    start_le_finish ..
  -- both ends of the period lie between the ends of the calendar, and so does all that is
  -- computed on the way
  have hfinish : held (periodOf schedule anchor day).finish = _ :=
    held_of_le (le_trans hmin hle) (le_of_lt hlt)
  have hheld : held (periodOf schedule anchor day).start = _ :=
    held_of_le hmin (le_of_lt (lt_of_le_of_lt hle hlt))
  obtain ⟨hm₁, hm₂, -⟩ := ymd_spec day
  have hlen := (daysInMonth_bounds (y := day.year) hm₁ hm₂).1
  have hone : 1 ≤ daysInMonth day.year day.month := by omega
  have hsixteen : 16 ≤ daysInMonth day.year day.month := by omega
  cases schedule with
  | DAILY => rfl
  | YEARLY => exact absurd rfl hyear
  | WEEKLY | BIWEEKLY =>
    exact Option.bind_eq_some_iff.mpr ⟨_, hheld, Option.bind_eq_some_iff.mpr ⟨_, hfinish, rfl⟩⟩
  | MONTHLY =>
    obtain ⟨next, hnext, hend⟩ := Option.bind_eq_some_iff.mp
      (monthEnd_held (le_refl 1) hone (le_trans hmin hle) hlt)
    exact Option.bind_eq_some_iff.mpr ⟨next, hnext, Option.bind_eq_some_iff.mpr ⟨_, hend, rfl⟩⟩
  | SEMIMONTHLY =>
    simp only [containing]
    by_cases hhalf : day.day ≤ 15
    · rw [if_pos hhalf]
      simp only [periodOf, tiling, halfMonthTiling]
      rw [if_pos hhalf, if_pos hhalf]
      rfl
    · -- the second half ends with its month
      have hsecond : (periodOf .SEMIMONTHLY anchor day).finish
          = ofYmd day.year day.month (daysInMonth day.year day.month) := by
        simp only [periodOf, tiling, halfMonthTiling]
        rw [if_neg hhalf]
      rw [hsecond] at hlt hle
      obtain ⟨next, hnext, hend⟩ := Option.bind_eq_some_iff.mp
        (monthEnd_held (by decide) hsixteen (le_trans hmin hle) hlt)
      rw [if_neg hhalf]
      refine Option.bind_eq_some_iff.mpr ⟨next, hnext, Option.bind_eq_some_iff.mpr ⟨_, hend, ?_⟩⟩
      simp only [periodOf, tiling, halfMonthTiling]
      rw [if_neg hhalf, if_neg hhalf]
      rfl

/-- What comes after a period that begins before the last year is not in the last
month. -/
theorem next_lt_december (h : (periodOf schedule anchor day).start < lastYear) :
    (periodOf schedule anchor day).finish.addDays 1 < december := by
  have hstart := Date.lt_iff.mp h
  have hgap : december.ordinal = lastYear.ordinal + 334 := by decide
  rw [Date.lt_iff, Date.ordinal_addDays]
  by_cases hyear : schedule = .YEARLY
  · -- a year that begins before the last year ends before it
    subst hyear
    have hlast : ¬ yearTiling.first lastYear.ordinal
        ≤ yearTiling.first (periodOf .YEARLY anchor day).start.ordinal := by
      have hfirst : yearTiling.first lastYear.ordinal = lastYear.ordinal := by decide
      have hself := yearTiling.first_le (periodOf .YEARLY anchor day).start.ordinal
      omega
    rw [yearTiling.first_le_first_iff] at hlast
    have hfinish : yearTiling.last (periodOf .YEARLY anchor day).start.ordinal
        = (periodOf .YEARLY anchor day).finish.ordinal := yearTiling.last_first _
    omega
  · have hshort := @periodOf_short schedule anchor day hyear
    omega

/-- The day after a period has the period that begins with it. -/
theorem start_next (schedule : Schedule) (anchor day : Date) :
    (periodOf schedule anchor ((periodOf schedule anchor day).finish.addDays 1)).start
      = (periodOf schedule anchor day).finish.addDays 1 :=
  congrArg Date.mk ((tiling schedule anchor).first_succ_last day.ordinal)

theorem iterFrom_eq (hlast : through < lastYear) {fuel : Nat}
    (hfirst : dateMin ≤ (periodOf schedule anchor day).start) (hpos : 0 < fuel)
    (hfuel : through.daysSince (periodOf schedule anchor day).start + 1 < fuel) :
    iterFrom through schedule (some anchor) fuel (periodOf schedule anchor day)
      = some (((tiling schedule anchor).walk through.ordinal fuel day.ordinal).map
          fun d => periodOf schedule anchor ⟨d⟩) := by
  induction fuel generalizing day with
  | zero => exact absurd hpos (lt_irrefl 0)
  | succ fuel ih =>
    simp only [iterFrom, Tiling.walk]
    by_cases h : (periodOf schedule anchor day).start ≤ through
    · have h' : (tiling schedule anchor).first day.ordinal ≤ through.ordinal := h
      rw [if_pos h, if_pos h', List.map_cons]
      have hle := Date.le_iff.mp (start_le_finish schedule anchor day)
      have hnext := start_next schedule anchor day
      have hmin := Date.le_iff.mp hfirst
      have hdecember := next_lt_december (lt_of_le_of_lt h hlast)
      -- the next period begins before the last December, so its first day is a date
      have hheld : held ((periodOf schedule anchor day).finish.addDays 1)
          = some ((periodOf schedule anchor day).finish.addDays 1) := by
        refine held_of_le (Date.le_iff.mpr ?_) (le_trans (le_of_lt hdecember) (by decide))
        rw [Date.ordinal_addDays]
        omega
      have hmin' : dateMin ≤ (periodOf schedule anchor
          ((periodOf schedule anchor day).finish.addDays 1)).start := by
        rw [hnext, Date.le_iff, Date.ordinal_addDays]
        omega
      simp only [Date.daysSince] at hfuel
      have hthrough := Date.le_iff.mp h
      have hfuel' : through.daysSince (periodOf schedule anchor
          ((periodOf schedule anchor day).finish.addDays 1)).start + 1 < fuel := by
        rw [hnext]
        simp only [Date.daysSince, Date.ordinal_addDays]
        omega
      rw [hheld, Option.bind_eq_bind, Option.bind_some, containing_eq hmin' hdecember,
        Option.bind_eq_bind, Option.bind_some, ih hmin' (by omega) hfuel']
      show some (periodOf schedule anchor day :: _) = some (_ :: _)
      congr 2
      exact periodOf_start schedule anchor day
    · have h' : ¬ (tiling schedule anchor).first day.ordinal ≤ through.ordinal := h
      rw [if_neg h, if_neg h']
      rfl

/-- With enough fuel the loop ends, with the periods that there are without
ends. -/
theorem iterPeriods_eq {first : Date} {ps : List Period}
    (hfirst : dateMin ≤ (periodOf schedule anchor first).start) (hlast : through < lastYear)
    (hle : first ≤ through)
    (hps : TimeOff.iterPeriods first through schedule (some anchor) = .ok ps) {fuel : Nat}
    (hfuel : through.daysSince (periodOf schedule anchor first).start + 1 < fuel) :
    iterPeriods fuel first through schedule (some anchor) = some ps := by
  have hthrough : first < december :=
    lt_of_le_of_lt hle (lt_trans hlast (by decide))
  have hcell := Date.le_iff.mp (mem_periodOf schedule anchor first).1
  have hdays := Date.le_iff.mp hle
  rw [TimeOff.iterPeriods_eq] at hps
  cases hps
  have hpos : 0 < fuel := by
    simp only [Date.daysSince] at hfuel
    omega
  simp only [iterPeriods]
  rw [containing_eq hfirst hthrough, Option.bind_eq_bind, Option.bind_some,
    iterFrom_eq hlast hfirst hpos hfuel]
  congr 2
  refine Tiling.walk_eq_walk _ ?_ ?_
  · show through.ordinal - (periodOf schedule anchor first).start.ordinal < _
    simp only [Date.daysSince] at hfuel
    omega
  · show through.ordinal - (periodOf schedule anchor first).start.ordinal < _
    simp only [Date.daysSince]
    omega

/-! ## Which periods begin in the calendar

Months, halves of months and years begin where the calendar does; blocks of days
are counted from an anchor and need not. -/

/-- Days, months, halves of months and years all do. -/
theorem begins_of_month (hweekly : schedule ≠ .WEEKLY) (hbiweekly : schedule ≠ .BIWEEKLY)
    (h : dateMin ≤ day) : dateMin ≤ (periodOf schedule anchor day).start := by
  have hfirst : (tiling schedule anchor).first dateMin.ordinal = dateMin.ordinal := by
    cases schedule with
    | DAILY => rfl
    | WEEKLY => exact absurd rfl hweekly
    | BIWEEKLY => exact absurd rfl hbiweekly
    | SEMIMONTHLY => exact (by decide : halfMonthTiling.first dateMin.ordinal = dateMin.ordinal)
    | YEARLY => exact (by decide : yearTiling.first dateMin.ordinal = dateMin.ordinal)
    | MONTHLY => exact (by decide : monthTiling.first dateMin.ordinal = dateMin.ordinal)
  have hle := (tiling schedule anchor).first_le_first_iff.mpr
    (le_trans (Date.le_iff.mp h) ((tiling schedule anchor).le_last day.ordinal))
  rw [hfirst] at hle
  exact hle

/-- From January 14 of year 1 on, every period does. -/
theorem begins_of_le (h : ofYmd 1 1 14 ≤ day) :
    dateMin ≤ (periodOf schedule anchor day).start := by
  have hday := Date.le_iff.mp h
  have hgap : (ofYmd 1 1 14).ordinal = dateMin.ordinal + 13 := by decide
  have hmin : dateMin ≤ day := Date.le_iff.mpr (by omega)
  have hmem := Date.le_iff.mp (mem_periodOf schedule anchor day).2
  rw [Date.le_iff]
  cases schedule with
  | WEEKLY | BIWEEKLY =>
    simp only [periodOf, tiling, Tiling.blocks] at hmem ⊢
    omega
  | DAILY | SEMIMONTHLY | YEARLY | MONTHLY => exact begins_of_month (by decide) (by decide) hmin

/-- A block of days that does not has no period. -/
theorem begins_of_containing {p : Period} (hmin : dateMin ≤ day)
    (h : containing day schedule (some anchor) = some p) :
    dateMin ≤ (periodOf schedule anchor day).start := by
  cases schedule with
  | WEEKLY | BIWEEKLY =>
    obtain ⟨start, hstart, -⟩ := Option.bind_eq_some_iff.mp h
    exact (held_eq_some.mp hstart).1
  | DAILY | SEMIMONTHLY | YEARLY | MONTHLY => exact begins_of_month (by decide) (by decide) hmin

/-! ## Tiling -/

/-- Before the last year, and from the first period that begins in the calendar
on, the periods of a schedule tile the days. -/
theorem periods_tile (schedule : Schedule) (anchor : Date) :
    (∀ day, dateMin ≤ (periodOf schedule anchor day).start → day < lastYear →
      ∃ period, containing day schedule (some anchor) = some period ∧ period.Contains day ∧
        ∀ x, period.Contains x → containing x schedule (some anchor) = some period) ∧
    ∀ first through, dateMin ≤ (periodOf schedule anchor first).start → through < lastYear →
      first ≤ through →
        ∃ ps, (∃ enough, ∀ fuel ≥ enough,
            iterPeriods fuel first through schedule (some anchor) = some ps) ∧
          Tiles first through ps := by
  constructor
  · intro day hfirst hlast
    have hmem := mem_periodOf schedule anchor day
    have hdecember := Date.lt_iff.mp (next_lt_december (lt_of_le_of_lt hmem.1 hlast))
    refine ⟨periodOf schedule anchor day, containing_eq hfirst (lt_trans hlast (by decide)), hmem,
      fun x hx => ?_⟩
    have heq := periodOf_eq (periodOf_start schedule anchor day) hx.1 hx.2
    rw [containing_eq (heq ▸ hfirst), heq]
    have hx' := Date.le_iff.mp hx.2
    rw [Date.ordinal_addDays] at hdecember
    exact Date.lt_iff.mpr (by omega)
  · intro first through hfirst hlast hle
    obtain ⟨ps, hps, htiles⟩ := TimeOff.iterPeriods_tiles hle
    refine ⟨ps, ⟨(through.daysSince (periodOf schedule anchor first).start + 2).toNat, ?_⟩, htiles⟩
    intro fuel hfuel
    exact iterPeriods_eq hfirst hlast hle hps (by omega)

/-- Weeks counted from a Tuesday: the one around the first day there is, a
Monday, begins before it. -/
theorem first_week_before_calendar :
    ¬ ∀ (schedule : Schedule) (anchor day : Date), dateMin ≤ anchor → anchor ≤ dateMax →
      dateMin ≤ day → day < lastYear →
        ∃ period, containing day schedule (some anchor) = some period ∧ period.Contains day := by
  intro hclaim
  obtain ⟨period, hperiod, -⟩ := hclaim .WEEKLY (ofYmd 2026 1 6) (ofYmd 1 1 1) (by decide)
    (by decide) (by decide) (by decide)
  have hnone : containing (ofYmd 1 1 1) .WEEKLY (some (ofYmd 2026 1 6)) = none := by decide
  rw [hnone] at hperiod
  cases hperiod

/-- The fortnights of a year that begins in the middle of one. -/
theorem fortnights_tile :
    ∃ ps fuel, iterPeriods fuel (ofYmd 2026 1 1) (ofYmd 2026 12 31) .BIWEEKLY
        (some (ofYmd 2026 1 5)) = some ps ∧
      Tiles (ofYmd 2026 1 1) (ofYmd 2026 12 31) ps := by
  obtain ⟨ps, ⟨fuel, hfuel⟩, htiles⟩ := (periods_tile .BIWEEKLY (ofYmd 2026 1 5)).2
    (ofYmd 2026 1 1) (ofYmd 2026 12 31) (by decide) (by decide) (by decide)
  exact ⟨ps, fuel, hfuel fuel (le_refl _), htiles⟩

end Calendar

end TimeOff
