import Mathlib.Order.Bounds.Basic
import TimeOff.Domain.Accrual

/-!
# Completed months

`completedTenureMonths` compares month numbers and days of the month and never
builds an anniversary. It is the number of months that fit between the two days
when months are added with the day of the month clamped, so month-end and leap
day hires complete a month on its last day.

Being the greatest such number makes it monotone in the second day and antitone
in the first (`completedTenureMonths_monotone`,
`completedTenureMonths_antitone`) without looking at months again: whatever fits
into a shorter stretch fits into a longer one. Before the start nothing has been
completed.
-/

namespace TimeOff

open Gregorian

/-- The months between the two, less one if the last is not complete. -/
theorem completedTenureMonths_eq (start onDate : Date) :
    completedTenureMonths start onDate
      = max (if onDate.day < min start.day (daysInMonth onDate.year onDate.month)
          then onDate.monthIndex - start.monthIndex - 1
          else onDate.monthIndex - start.monthIndex) 0 := by
  unfold completedTenureMonths Date.monthIndex
  dsimp only
  split_ifs <;> omega

/-- From the start on, the months completed are the most that can be added
without passing the day. -/
theorem isGreatest_completedTenureMonths {start onDate : Date} (h : start ≤ onDate) :
    IsGreatest {n : Int | 0 ≤ n ∧ start.addMonths n ≤ onDate}
      (completedTenureMonths start onDate) := by
  have hindex := monthIndex_mono h
  have hfirst : start.monthIndex = onDate.monthIndex → start.day ≤ onDate.day :=
    fun heq => (le_iff_day_le heq).mp h
  rw [completedTenureMonths_eq]
  constructor
  · refine ⟨le_max_right _ _, addMonths_le_iff.mpr ?_⟩
    split_ifs <;> omega
  · rintro n ⟨hn, hle⟩
    have hreach := addMonths_le_iff.mp hle
    split_ifs <;> omega

/-- The function stops at zero. -/
theorem completedTenureMonths_nonneg (start onDate : Date) :
    0 ≤ completedTenureMonths start onDate := le_max_right _ _

/-- Nothing is completed before the start. -/
theorem completedTenureMonths_of_lt {start onDate : Date} (h : onDate < start) :
    completedTenureMonths start onDate = 0 := by
  have hindex := monthIndex_mono (le_of_lt h)
  obtain ⟨-, -, -, hlast, -⟩ := ymd_spec onDate
  have hfirst : onDate.monthIndex = start.monthIndex → onDate.day < start.day := by
    intro heq
    by_contra hge
    exact absurd ((le_iff_day_le heq.symm).mpr (not_lt.mp hge)) (not_le.mpr h)
  rw [completedTenureMonths_eq]
  split_ifs <;> omega

/-- Months fit into a later day if they fit into an earlier one. -/
theorem completedTenureMonths_monotone (start : Date) {d e : Date} (hde : d ≤ e) :
    completedTenureMonths start d ≤ completedTenureMonths start e := by
  rcases lt_or_ge d start with hbefore | hstarted
  · rw [completedTenureMonths_of_lt hbefore]
    exact completedTenureMonths_nonneg start e
  · obtain ⟨hn, hle⟩ := (isGreatest_completedTenureMonths hstarted).1
    exact (isGreatest_completedTenureMonths (hstarted.trans hde)).2 ⟨hn, hle.trans hde⟩

/-- And months that fit after a later start fit after an earlier one. -/
theorem completedTenureMonths_antitone (onDate : Date) {s t : Date} (hst : s ≤ t) :
    completedTenureMonths t onDate ≤ completedTenureMonths s onDate := by
  rcases lt_or_ge onDate t with hbefore | hstarted
  · rw [completedTenureMonths_of_lt hbefore]
    exact completedTenureMonths_nonneg s onDate
  · obtain ⟨hn, hle⟩ := (isGreatest_completedTenureMonths hstarted).1
    exact (isGreatest_completedTenureMonths (hst.trans hstarted)).2
      ⟨hn, (addMonths_mono hst _).trans hle⟩

/-- Completed months are clamped month addition read backwards: nothing before
the start, growing with the day and shrinking with the start. -/
theorem completedTenureMonths_spec :
    (∀ start onDate, start ≤ onDate →
      IsGreatest {n : Int | 0 ≤ n ∧ start.addMonths n ≤ onDate}
        (completedTenureMonths start onDate)) ∧
    (∀ start onDate, onDate < start → completedTenureMonths start onDate = 0) ∧
    (∀ start d e, d ≤ e → completedTenureMonths start d ≤ completedTenureMonths start e) ∧
    ∀ onDate s t, s ≤ t → completedTenureMonths t onDate ≤ completedTenureMonths s onDate :=
  ⟨fun _ _ => isGreatest_completedTenureMonths, fun _ _ => completedTenureMonths_of_lt,
    fun start _ _ => completedTenureMonths_monotone start,
    fun onDate _ _ => completedTenureMonths_antitone onDate⟩

/-- Hired on a leap day: the year is full on February 28. -/
example : completedTenureMonths (ofYmd 2024 2 29) (ofYmd 2025 2 28) = 12 := by decide +kernel

end TimeOff
