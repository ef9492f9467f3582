import TimeOff.Domain.Enums
import TimeOff.Lib.Gregorian
import TimeOff.Lib.Tiling

/-!
# Calendar periods of the scheduled accrual planner

`containing` and `iterPeriods` are the code's, on days without a first or a last
one. Each schedule is a tiling of the days (`tiling`), `containing` computes its
cells (`containing_eq`) and `iterPeriods` walks them (`mem_iterPeriods`).

These are the functions that the services of this development call. There they
stand for the code as long as it returns: with a year beyond 9999 the code
raises and nothing is posted, while a result about a run is about what is
posted. `Domain.Calendar` has the same two functions once more, with every
computed date checked against the ends of the calendar and the loop as it runs.
It derives them from these (`Calendar.ok_of_containing`,
`Calendar.containing_eq`, `Calendar.iterPeriods_eq`), and is where the ends
matter: the theorem about tiling is there.

A schedule by weeks counts its blocks from the pay-period anchor; the others are
read off the calendar. As a tiling each of them is two functions on days, the
first and the last of the cell, and the library about tilings does the rest:
which cells a walk meets, that none is met twice, and that the next one begins
where one ends.
-/

namespace TimeOff

open Gregorian

/-- A calendar period; both ends belong to it. -/
structure Period where
  start : Date
  finish : Date
deriving DecidableEq, Repr

/-- The first day of the month after `start`'s. -/
def nextMonth (start : Date) : Date :=
  ofYmd (start.year + if start.month = 12 then 1 else 0) (start.month % 12 + 1) 1

/-- `containing`: the period of a schedule around a day; a schedule by weeks
needs an anchor. -/
def containing (day : Date) (schedule : Schedule) (payPeriodAnchor : Option Date) :
    Except Error Period :=
  let blocks (stride : Int) : Except Error Period :=
    match payPeriodAnchor with
    | none => .error (.value s!"{schedule.value} requires a pay-period anchor")
    | some anchor =>
      let start := anchor.addDays (day.daysSince anchor / stride * stride)
      .ok ⟨start, start.addDays (stride - 1)⟩
  match schedule with
  | .DAILY => .ok ⟨day, day⟩
  | .WEEKLY => blocks 7
  | .BIWEEKLY => blocks 14
  | .SEMIMONTHLY =>
    if day.day ≤ 15 then .ok ⟨day.replaceDay 1, day.replaceDay 15⟩
    else
      let start := day.replaceDay 16
      .ok ⟨start, (nextMonth start).addDays (-1)⟩
  | .YEARLY => .ok ⟨ofYmd day.year 1 1, ofYmd day.year 12 31⟩
  | .MONTHLY =>
    let start := day.replaceDay 1
    .ok ⟨start, (nextMonth start).addDays (-1)⟩

/-- The loop of `iterPeriods` from `cursor` on, for at most `fuel` periods. -/
def iterFrom (through : Date) (schedule : Schedule) (payPeriodAnchor : Option Date) :
    Nat → Period → Except Error (List Period)
  | 0, _ => .ok []
  | fuel + 1, cursor =>
    if cursor.start ≤ through then do
      let next ← containing (cursor.finish.addDays 1) schedule payPeriodAnchor
      return cursor :: (← iterFrom through schedule payPeriodAnchor fuel next)
    else .ok []

/-- The periods from the one around `firstDay` to the last that starts by
`through`. Every period takes the cursor at least one day on, so the fuel
outlasts the loop. -/
def iterPeriods (firstDay through : Date) (schedule : Schedule) (payPeriodAnchor : Option Date) :
    Except Error (List Period) := do
  let cursor ← containing firstDay schedule payPeriodAnchor
  iterFrom through schedule payPeriodAnchor (through.daysSince cursor.start + 1).toNat cursor

/-! ## Schedules as tilings

Each schedule cuts the days into periods: days, blocks of seven or fourteen from
the anchor, halves of months, months, years. The source's computation of a
period is the cell of its tiling, and its loop a walk over cells. -/

/-- Single days. -/
def dayTiling : Tiling where
  first d := d
  last d := d
  first_le _ := le_refl _
  le_last _ := le_refl _
  same h₁ h₂ := by omega

/-- Days of one calendar month lie between its ends. -/
theorem day_bounds (d : Date) :
    (ofYmd d.year d.month 1).ordinal ≤ d.ordinal ∧
      d.ordinal ≤ (ofYmd d.year d.month (daysInMonth d.year d.month)).ordinal ∧
      d.ordinal = (ofYmd d.year d.month d.day).ordinal := by
  obtain ⟨-, -, h₁, h₂, h⟩ := ymd_spec d
  have h' := congrArg Date.ordinal h
  simp only [ordinal_ofYmd] at h' ⊢
  omega

/-- A day between the ends of a calendar month is in that month. -/
theorem month_of_bounds {d x : Date} (h₁ : (ofYmd d.year d.month 1).ordinal ≤ x.ordinal)
    (h₂ : x.ordinal ≤ (ofYmd d.year d.month (daysInMonth d.year d.month)).ordinal) :
    x.year = d.year ∧ x.month = d.month := by
  obtain ⟨hm₁, hm₂, -⟩ := ymd_spec d
  rw [ordinal_ofYmd] at h₁ h₂
  unfold daysInMonth at h₂
  exact year_month_unique hm₁ hm₂ (by omega) (by omega)

/-- Calendar months, and years. -/
def monthTiling : Tiling where
  first d := (ofYmd (Date.mk d).year (Date.mk d).month 1).ordinal
  last d := (ofYmd (Date.mk d).year (Date.mk d).month
    (daysInMonth (Date.mk d).year (Date.mk d).month)).ordinal
  first_le d := (day_bounds ⟨d⟩).1
  le_last d := (day_bounds ⟨d⟩).2.1
  same {d x} h₁ h₂ := by
    obtain ⟨hy, hm⟩ := @month_of_bounds ⟨d⟩ ⟨x⟩ h₁ h₂
    rw [hy, hm]
    exact ⟨rfl, rfl⟩

/-- Days 1 to 15 and 16 to the end of each month. -/
def halfMonthTiling : Tiling where
  first d := (ofYmd (Date.mk d).year (Date.mk d).month
    (if (Date.mk d).day ≤ 15 then 1 else 16)).ordinal
  last d := (ofYmd (Date.mk d).year (Date.mk d).month
    (if (Date.mk d).day ≤ 15 then 15 else daysInMonth (Date.mk d).year (Date.mk d).month)).ordinal
  first_le d := by
    have h := day_bounds ⟨d⟩
    simp only [ordinal_ofYmd] at h ⊢
    split <;> omega
  le_last d := by
    have h := day_bounds ⟨d⟩
    simp only [ordinal_ofYmd] at h ⊢
    split <;> omega
  same {d x} h₁ h₂ := by
    have hd := day_bounds ⟨d⟩
    have hx := day_bounds ⟨x⟩
    obtain ⟨hm₁, hm₂, -⟩ := ymd_spec ⟨d⟩
    have hlen := daysInMonth_bounds (y := (Date.mk d).year) hm₁ hm₂
    obtain ⟨hy, hm⟩ :
        (Date.mk x).year = (Date.mk d).year ∧ (Date.mk x).month = (Date.mk d).month := by
      refine month_of_bounds ?_ ?_ <;> simp only [ordinal_ofYmd] at h₁ h₂ hd ⊢ <;>
        split at h₁ <;> split at h₂ <;> omega
    rw [hy, hm] at hx ⊢
    -- the half of the month follows from the bounds
    have hhalf : (Date.mk x).day ≤ 15 ↔ (Date.mk d).day ≤ 15 := by
      simp only [ordinal_ofYmd] at h₁ h₂ hd hx
      split at h₁ <;> split at h₂ <;> omega
    simp only [hhalf, and_self]

def yearTiling : Tiling where
  first d := (ofYmd (Date.mk d).year 1 1).ordinal
  last d := (ofYmd (Date.mk d).year 12 31).ordinal
  first_le d := by
    have := yearOf_bounds d
    show daysBeforeYear (yearOf d) + daysBeforeMonth _ 1 + 1 ≤ d
    rw [daysBeforeMonth_one]
    omega
  le_last d := by
    have h := (yearOf_bounds d).2
    rw [daysBeforeYear_succ] at h
    show d ≤ daysBeforeYear (yearOf d) + daysBeforeMonth (isLeap (yearOf d)) 12 + 31
    unfold daysInYear at h
    cases hl : isLeap (yearOf d) <;> rw [hl] at h <;> simp only [daysBeforeMonth] <;>
      simp at h ⊢ <;> omega
  same {d x} h₁ h₂ := by
    have hy : (Date.mk x).year = (Date.mk d).year := by
      refine yearOf_unique ?_ ?_
      · rw [ordinal_ofYmd, daysBeforeMonth_one] at h₁
        show daysBeforeYear (Date.mk d).year < x
        omega
      · rw [ordinal_ofYmd] at h₂
        show x ≤ daysBeforeYear ((Date.mk d).year + 1)
        rw [daysBeforeYear_succ]
        unfold daysInYear
        cases hl : isLeap (Date.mk d).year <;> rw [hl] at h₂ <;>
          simp only [daysBeforeMonth] at h₂ <;> simp at h₂ ⊢ <;> omega
    rw [hy]
    exact ⟨rfl, rfl⟩

/-- The periods of a schedule. -/
def tiling (schedule : Schedule) (anchor : Date) : Tiling :=
  match schedule with
  | .DAILY => dayTiling
  | .WEEKLY => .blocks anchor.ordinal 7 (by decide)
  | .BIWEEKLY => .blocks anchor.ordinal 14 (by decide)
  | .SEMIMONTHLY => halfMonthTiling
  | .YEARLY => yearTiling
  | .MONTHLY => monthTiling

/-- The period of a schedule around `day`. -/
def periodOf (schedule : Schedule) (anchor day : Date) : Period :=
  ⟨⟨(tiling schedule anchor).first day.ordinal⟩, ⟨(tiling schedule anchor).last day.ordinal⟩⟩

/-- Periods are not empty. -/
theorem start_le_finish (schedule : Schedule) (anchor day : Date) :
    (periodOf schedule anchor day).start ≤ (periodOf schedule anchor day).finish :=
  le_trans ((tiling schedule anchor).first_le day.ordinal)
    ((tiling schedule anchor).le_last day.ordinal)

/-- A period is not over before `day` exactly when the one around `day` starts no
later. -/
theorem start_le_start_iff {schedule : Schedule} {anchor day : Date} {p : Period}
    (hp : p = periodOf schedule anchor p.start) :
    (periodOf schedule anchor day).start ≤ p.start ↔ day ≤ p.finish := by
  have hstart : (tiling schedule anchor).first p.start.ordinal = p.start.ordinal :=
    congrArg (fun q => q.start.ordinal) hp.symm
  have hfinish : p.finish.ordinal = (tiling schedule anchor).last p.start.ordinal :=
    congrArg (fun q => q.finish.ordinal) hp
  rw [Date.le_iff, Date.le_iff, hfinish, ← (tiling schedule anchor).first_le_first_iff, hstart]
  rfl

/-- The period around each of its days. -/
theorem periodOf_eq {schedule : Schedule} {anchor day : Date} {p : Period}
    (hp : p = periodOf schedule anchor p.start) (h₁ : p.start ≤ day) (h₂ : day ≤ p.finish) :
    periodOf schedule anchor day = p := by
  have hfirst : (tiling schedule anchor).first p.start.ordinal ≤ day.ordinal :=
    le_trans ((tiling schedule anchor).first_le _) h₁
  have hlast : day.ordinal ≤ (tiling schedule anchor).last p.start.ordinal := by
    rw [hp] at h₂
    exact h₂
  obtain ⟨hf, hl⟩ := (tiling schedule anchor).same hfirst hlast
  rw [hp]
  unfold periodOf
  rw [hf, hl]

/-- A period is the one around its first day. -/
theorem periodOf_start (schedule : Schedule) (anchor day : Date) :
    periodOf schedule anchor day
      = periodOf schedule anchor (periodOf schedule anchor day).start := by
  unfold periodOf
  rw [(tiling schedule anchor).first_first, (tiling schedule anchor).last_first]

/-- A period is around its day. -/
theorem mem_periodOf (schedule : Schedule) (anchor day : Date) :
    (periodOf schedule anchor day).start ≤ day ∧ day ≤ (periodOf schedule anchor day).finish :=
  ⟨(tiling schedule anchor).first_le day.ordinal, (tiling schedule anchor).le_last day.ordinal⟩

/-- Periods other than years are no longer than a month. -/
theorem periodOf_short {schedule : Schedule} {anchor day : Date} (h : schedule ≠ .YEARLY) :
    (periodOf schedule anchor day).finish.ordinal
      ≤ (periodOf schedule anchor day).start.ordinal + 30 := by
  obtain ⟨n⟩ := day
  obtain ⟨hm₁, hm₂, -⟩ := ymd_spec ⟨n⟩
  have hmonth := daysInMonth_bounds (y := (Date.mk n).year) hm₁ hm₂
  cases schedule with
  | DAILY =>
    show n ≤ n + 30
    omega
  | WEEKLY | BIWEEKLY =>
    simp only [periodOf, tiling, Tiling.blocks]
    omega
  | SEMIMONTHLY =>
    simp only [periodOf, tiling, halfMonthTiling, ordinal_ofYmd]
    split <;> omega
  | YEARLY => exact absurd rfl h
  | MONTHLY =>
    simp only [periodOf, tiling, monthTiling, ordinal_ofYmd]
    omega

/-- No period is longer than a leap year. -/
theorem periodOf_length (schedule : Schedule) (anchor day : Date) :
    (periodOf schedule anchor day).finish.daysSince (periodOf schedule anchor day).start ≤ 365 := by
  by_cases hyear : schedule = .YEARLY
  · rw [hyear]
    simp only [Date.daysSince, periodOf, tiling, yearTiling, ordinal_ofYmd]
    cases isLeap (Date.mk day.ordinal).year <;> simp [daysBeforeMonth] <;> omega
  · have hshort := @periodOf_short schedule anchor day hyear
    simp only [Date.daysSince]
    omega

/-- The day before the next month is the last of this one. -/
theorem nextMonth_sub_one {d : Date} {k : Int} (h₁ : 1 ≤ k) (h₂ : k ≤ daysInMonth d.year d.month) :
    (nextMonth (d.replaceDay k)).addDays (-1)
      = ofYmd d.year d.month (daysInMonth d.year d.month) := by
  obtain ⟨hm₁, hm₂, -⟩ := ymd_spec d
  obtain ⟨hy, hm, -⟩ := ofYmd_ymd hm₁ hm₂ h₁ h₂
  unfold nextMonth Date.replaceDay
  rw [hy, hm, ofYmd_nextMonth hm₁ hm₂, Date.ext_iff', Date.ordinal_addDays, ordinal_ofYmd,
    ordinal_ofYmd]
  omega

/-- The code computes the cells of the schedule's tiling. -/
theorem containing_eq (day : Date) (schedule : Schedule) (anchor : Date) :
    containing day schedule (some anchor) = .ok (periodOf schedule anchor day) := by
  obtain ⟨hm₁, hm₂, hd₁, hd₂, -⟩ := ymd_spec day
  have hlen := (daysInMonth_bounds (y := day.year) hm₁ hm₂).1
  cases schedule with
  | DAILY => rfl
  | WEEKLY => rfl
  | BIWEEKLY => rfl
  | YEARLY => rfl
  | MONTHLY =>
    show Except.ok (Period.mk _ _) = _
    rw [nextMonth_sub_one (le_refl 1) (by omega)]
    rfl
  | SEMIMONTHLY =>
    unfold containing periodOf tiling halfMonthTiling
    dsimp only
    split
    · rfl
    · rw [nextMonth_sub_one (by decide) (by omega)]
      rfl

/-- The loop walks the cells of the tiling. -/
theorem iterFrom_eq {through : Date} {schedule : Schedule} {anchor : Date} (fuel : Nat)
    (day : Date) :
    iterFrom through schedule (some anchor) fuel (periodOf schedule anchor day)
      = .ok (((tiling schedule anchor).walk through.ordinal fuel day.ordinal).map
          fun d => periodOf schedule anchor ⟨d⟩) := by
  induction fuel generalizing day with
  | zero => rfl
  | succ fuel ih =>
    unfold iterFrom Tiling.walk
    by_cases h : (periodOf schedule anchor day).start ≤ through
    · have h' : (tiling schedule anchor).first day.ordinal ≤ through.ordinal := h
      rw [if_pos h, if_pos h', containing_eq]
      show (do
        let rest ← iterFrom through schedule (some anchor) fuel (periodOf schedule anchor
          ((periodOf schedule anchor day).finish.addDays 1))
        Except.ok (periodOf schedule anchor day :: rest)) = _
      rw [ih]
      show Except.ok (periodOf schedule anchor day :: _) = _
      rw [List.map_cons]
      congr 2
      unfold periodOf
      rw [(tiling schedule anchor).first_first, (tiling schedule anchor).last_first]
    · have h' : ¬ (tiling schedule anchor).first day.ordinal ≤ through.ordinal := h
      rw [if_neg h, if_neg h']
      rfl

/-- And the function walks them from the cell of its first day. -/
theorem iterPeriods_eq (firstDay through : Date) (schedule : Schedule) (anchor : Date) :
    iterPeriods firstDay through schedule (some anchor)
      = .ok (((tiling schedule anchor).walk through.ordinal
          (through.daysSince (periodOf schedule anchor firstDay).start + 1).toNat
          firstDay.ordinal).map fun d => periodOf schedule anchor ⟨d⟩) := by
  unfold iterPeriods
  rw [containing_eq]
  exact iterFrom_eq _ _

/-- The fuel is enough. -/
theorem lt_fuel (firstDay through : Date) (schedule : Schedule) (anchor : Date) :
    through.ordinal - (tiling schedule anchor).first firstDay.ordinal
      < ((through.daysSince (periodOf schedule anchor firstDay).start + 1).toNat : Int) := by
  show _ < (((through.ordinal - (tiling schedule anchor).first firstDay.ordinal) + 1).toNat : Int)
  omega

/-- `iterPeriods` yields exactly the periods that start by `through`, from the
one around `firstDay` on. -/
theorem mem_iterPeriods (firstDay through : Date) (schedule : Schedule) (anchor : Date) :
    ∃ ps, iterPeriods firstDay through schedule (some anchor) = .ok ps ∧
      ∀ p, p ∈ ps ↔ p = periodOf schedule anchor p.start ∧
        (periodOf schedule anchor firstDay).start ≤ p.start ∧ p.start ≤ through := by
  refine ⟨_, iterPeriods_eq firstDay through schedule anchor, fun p => ?_⟩
  rw [List.mem_map]
  have hfuel := lt_fuel firstDay through schedule anchor
  constructor
  · rintro ⟨d, hd, rfl⟩
    obtain ⟨h₁, h₂, h₃⟩ := (Tiling.mem_walk _ hfuel).mp hd
    have hstart : (periodOf schedule anchor ⟨d⟩).start = ⟨d⟩ := congrArg Date.mk h₁
    rw [hstart]
    exact ⟨rfl, h₂, h₃⟩
  · rintro ⟨h₁, h₂, h₃⟩
    refine ⟨p.start.ordinal, (Tiling.mem_walk _ hfuel).mpr ⟨?_, h₂, h₃⟩, h₁.symm⟩
    exact congrArg (fun q => q.start.ordinal) h₁.symm

/-- No period is yielded twice. -/
theorem nodup_iterPeriods {firstDay through : Date} {schedule : Schedule} {anchor : Date}
    {ps : List Period} (h : iterPeriods firstDay through schedule (some anchor) = .ok ps) :
    (ps.map (·.start)).Nodup := by
  rw [iterPeriods_eq] at h
  cases h
  rw [List.map_map]
  refine (Tiling.nodup_walk _ _ _ _).map_on fun x hx y hy hxy => ?_
  have hcell := (Tiling.mem_walk _ (lt_fuel ..)).mp hx
  have hcell' := (Tiling.mem_walk _ (lt_fuel ..)).mp hy
  have hstart : (tiling schedule anchor).first x = (tiling schedule anchor).first y :=
    congrArg Date.ordinal hxy
  rw [← hcell.1, ← hcell'.1, hstart]

/-- By an earlier date the periods are those that start by then. -/
theorem iterPeriods_filter {firstDay through through' : Date} {schedule : Schedule} {anchor : Date}
    {ps : List Period} (h : iterPeriods firstDay through schedule (some anchor) = .ok ps)
    (hle : through' ≤ through) :
    iterPeriods firstDay through' schedule (some anchor)
      = .ok (ps.filter fun p => p.start ≤ through') := by
  rw [iterPeriods_eq] at h
  cases h
  have hfirst := Date.le_iff.mp hle
  have hfuel := lt_fuel firstDay through schedule anchor
  rw [iterPeriods_eq, List.filter_map,
    Tiling.walk_eq_walk _ (lt_fuel firstDay through' schedule anchor)
      (lt_of_le_of_lt (Int.sub_le_sub_right hfirst _) hfuel),
    ← Tiling.filter_walk _ hfirst]
  refine congrArg (fun l => Except.ok (List.map _ l)) (List.filter_congr fun x hx => ?_)
  have hcell : (tiling schedule anchor).first x = x := ((Tiling.mem_walk _ hfuel).mp hx).1
  show decide (x ≤ through'.ordinal)
    = decide ((tiling schedule anchor).first x ≤ through'.ordinal)
  rw [hcell]

/-! ## Tiling -/

/-- The day is in the period. -/
def Period.Contains (p : Period) (day : Date) : Prop := p.start ≤ day ∧ day ≤ p.finish

instance (p : Period) (day : Date) : Decidable (p.Contains day) :=
  inferInstanceAs (Decidable (_ ∧ _))

/-- Periods that follow each other from the one around `first` to the one around
`through`, with every day between in one of them. -/
structure Tiles (first through : Date) (ps : List Period) : Prop where
  head : ∃ p ∈ ps.head?, p.Contains first
  consecutive : ps.IsChain fun p q => q.start = p.finish.addDays 1
  last : ∃ p ∈ ps.getLast?, p.Contains through
  once : ∀ day, first ≤ day → day ≤ through → ps.countP (fun p => p.Contains day) = 1

/-- The cells of a schedule that a walk meets are its periods, in a row. -/
theorem tiles_walk {schedule : Schedule} {anchor first through : Date} {fuel : Nat}
    (hfuel : through.ordinal - (tiling schedule anchor).first first.ordinal < fuel)
    (hle : first ≤ through) :
    Tiles first through (((tiling schedule anchor).walk through.ordinal fuel first.ordinal).map
      fun d => periodOf schedule anchor ⟨d⟩) := by
  have hcell := (tiling schedule anchor).first_le first.ordinal
  have hd : (tiling schedule anchor).first first.ordinal ≤ through.ordinal := le_trans hcell hle
  refine
    { head := ⟨periodOf schedule anchor first, ?_, mem_periodOf ..⟩
      consecutive := ?_
      last := ⟨periodOf schedule anchor through, ?_, mem_periodOf ..⟩
      once := fun day h₁ h₂ => ?_ }
  · rw [List.head?_map, Tiling.head?_walk _ (by omega) hd, Option.map_some, Option.mem_some_iff]
    exact (periodOf_start schedule anchor first).symm
  · rw [List.isChain_map]
    refine ((tiling schedule anchor).isChain_walk through.ordinal fuel first.ordinal).imp ?_
    rintro x y rfl
    exact congrArg Date.mk ((tiling schedule anchor).first_succ_last x)
  · rw [List.getLast?_map, Tiling.getLast?_walk _ hfuel hd, Option.map_some, Option.mem_some_iff]
    exact (periodOf_start schedule anchor through).symm
  · rw [List.countP_map, ← Tiling.countP_walk (tiling schedule anchor) hfuel h₁ h₂]
    refine List.countP_congr fun c hc => ?_
    -- the period of a cell that the walk meets begins with it
    have hself := ((tiling schedule anchor).mem_walk hfuel |>.mp hc).1
    have hstart : (periodOf schedule anchor ⟨c⟩).start = ⟨c⟩ := congrArg Date.mk hself
    simp only [Function.comp_apply, decide_eq_true_eq, Period.Contains, hstart]
    rfl

/-- So the periods of a range tile it. -/
theorem iterPeriods_tiles {schedule : Schedule} {anchor first through : Date}
    (hle : first ≤ through) :
    ∃ ps, iterPeriods first through schedule (some anchor) = .ok ps ∧ Tiles first through ps := by
  exact ⟨_, iterPeriods_eq first through schedule anchor, tiles_walk (lt_fuel ..) hle⟩

end TimeOff
