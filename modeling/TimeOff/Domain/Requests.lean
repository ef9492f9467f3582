import TimeOff.Domain.Enums
import TimeOff.Lib.Gregorian

/-!
# Request-day expansion

`requestDays` freezes the cost of a request: the working days of its range, each
with its minutes. What it returns is never empty and stays in the range
(`requestDays_spec`), so a request costs more than nothing.

This is the function that the services of this development call, on days without
a last one. Its loop moves the cursor on after every day, and beyond 9999-12-31
the code raises; `Requests.Expansion` has the same function with the loop as it
runs, tested against the end of the calendar and with fuel, and derives it from
this one (`Calendar.requestDays_eq`).
-/

namespace TimeOff

open Gregorian

/-- A charged day of a request. -/
structure RequestDay where
  date : Date
  minutes : Int
deriving DecidableEq, Repr

/-- The loop over the dates from `cursor` on, for `fuel` days. -/
def chargedDays (minutes : Int) (workDays : List Int) (holidays : List Date) :
    Nat → Date → List RequestDay
  | 0, _ => []
  | fuel + 1, cursor =>
    let rest := chargedDays minutes workDays holidays fuel (cursor.addDays 1)
    if cursor.isoWeekday ∈ workDays ∧ cursor ∉ holidays then ⟨cursor, minutes⟩ :: rest else rest

/-- `partial_minutes or day_minutes` -/
def dayCharge (partialMinutes : Option Int) (dayMinutes : Int) : Int :=
  match partialMinutes with
  | none => dayMinutes
  | some m => if m = 0 then dayMinutes else m

def requestDays (start finish : Date) (partialMinutes : Option Int) (dayMinutes : Int)
    (workDays : List Int) (holidays : List Date) : Except Error (List RequestDay) :=
  if finish < start then
    .error (.request "The end date cannot be before the start date.")
  else if partialMinutes.isSome ∧ start ≠ finish then
    .error (.request "Partial hours are only supported for a single-day request.")
  else if ∃ m ∈ partialMinutes, ¬ (0 < m ∧ m ≤ dayMinutes) then
    .error (.request s!"A partial request must be between 1 and {dayMinutes} minutes.")
  else
    let days := chargedDays (dayCharge partialMinutes dayMinutes) workDays holidays
      (finish.daysSince start + 1).toNat start
    if days = [] then .error (.request "The request contains no working days.") else .ok days

theorem mem_chargedDays {minutes : Int} {workDays : List Int} {holidays : List Date} {fuel : Nat}
    {cursor : Date} {d : RequestDay} :
    d ∈ chargedDays minutes workDays holidays fuel cursor ↔
      d.minutes = minutes ∧ cursor ≤ d.date ∧ d.date.ordinal < cursor.ordinal + fuel ∧
        d.date.isoWeekday ∈ workDays ∧ d.date ∉ holidays := by
  induction fuel generalizing cursor with
  | zero =>
    simp only [chargedDays, List.not_mem_nil, false_iff, Date.le_iff]
    rintro ⟨-, h₁, h₂, -⟩
    omega
  | succ fuel ih =>
    -- the days behind the cursor
    have hrest : d ∈ chargedDays minutes workDays holidays fuel (cursor.addDays 1) ↔
        d.minutes = minutes ∧ cursor < d.date ∧ d.date.ordinal < cursor.ordinal + (fuel + 1 : Nat) ∧
          d.date.isoWeekday ∈ workDays ∧ d.date ∉ holidays := by
      rw [ih, Date.le_iff, Date.lt_iff, Date.ordinal_addDays]
      push_cast
      constructor <;> rintro ⟨h₁, h₂, h₃, h₄⟩ <;> exact ⟨h₁, by omega, by omega, h₄⟩
    simp only [chargedDays]
    split
    · next hday =>
      rw [List.mem_cons, hrest]
      constructor
      · rintro (rfl | ⟨h₁, h₂, h₃⟩)
        · exact ⟨rfl, le_refl _, by push_cast; omega, hday⟩
        · exact ⟨h₁, le_of_lt h₂, h₃⟩
      · rintro ⟨h₁, h₂, h₃⟩
        rcases eq_or_lt_of_le h₂ with h | h
        · refine Or.inl ?_
          cases d
          cases h
          cases h₁
          rfl
        · exact Or.inr ⟨h₁, h, h₃⟩
    · next hday =>
      rw [hrest]
      constructor
      · rintro ⟨h₁, h₂, h₃⟩
        exact ⟨h₁, le_of_lt h₂, h₃⟩
      · rintro ⟨h₁, h₂, h₃, h₄⟩
        refine ⟨h₁, lt_of_le_of_ne h₂ ?_, h₃, h₄⟩
        rintro rfl
        exact hday h₄

/-- A request has a charged day, and charges each of its days for more than
nothing. -/
theorem requestDays_spec {start finish : Date} {partialMinutes : Option Int} {dayMinutes : Int}
    {workDays : List Int} {holidays : List Date} {days : List RequestDay} (hday : 0 < dayMinutes)
    (h : requestDays start finish partialMinutes dayMinutes workDays holidays = .ok days) :
    start ≤ finish ∧ days ≠ [] ∧ ∀ d ∈ days, 0 < d.minutes := by
  unfold requestDays at h
  split_ifs at h with h₁ h₂ h₃
  dsimp only at h
  split at h
  · cases h
  next h₄ =>
  cases h
  refine ⟨not_lt.mp h₁, h₄, fun d hd => ?_⟩
  rw [(mem_chargedDays.mp hd).1]
  cases partialMinutes with
  | none => exact hday
  | some m =>
    push Not at h₃
    obtain ⟨hm, -⟩ := h₃ m rfl
    show 0 < if m = 0 then dayMinutes else m
    rw [if_neg (by omega)]
    exact hm

end TimeOff
