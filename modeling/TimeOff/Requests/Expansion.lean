import TimeOff.Domain.Calendar
import TimeOff.Requests.Lifecycle

/-!
# The days a request charges

`Calendar.requestDays` is the expansion with its loop as it runs: the cursor is
tested against the end and moved on within the calendar. With enough fuel it
returns what `requestDays` returns (`Calendar.requestDays_eq`), the working days
of the range in order (`requestDays_eq_ok_iff`) or an error
(`requestDays_eq_error_iff`).

The services use `requestDays` of `Domain.Requests`, whose days have no end; the
copy here shows that its loop ends, after one round for each day of the range
and one more test, and that within the calendar the two are the same. The
invariant of the loop is that the days before the cursor are charged and the
cursor has not passed the end of the calendar (`Calendar.chargeFrom_eq`).

What is charged is then said without a loop. A day qualifies when it is in the
range, on a weekday of the employee and no holiday, and the charged days are
exactly these, in increasing order and each for the same minutes
(`mem_of_requestDays`). The range is refused when its ends or the partial
minutes are out of order (`not_expandable_iff`), or when no day qualifies.
-/

namespace TimeOff

open Gregorian

namespace Calendar

/-- The loop of `requestDays` from `cursor` on, with the days charged so far; no
result when the fuel runs out before the loop ends. -/
def chargeFrom (finish : Date) (minutes : Int) (workDays : List Int) (holidays : List Date) :
    Nat → Date → List RequestDay → Option (List RequestDay)
  | 0, _, _ => none
  | fuel + 1, cursor, days =>
    if cursor ≤ finish then do
      let days := if cursor.isoWeekday ∈ workDays ∧ cursor ∉ holidays then
          days ++ [⟨cursor, minutes⟩]
        else days
      let next ← held (cursor.addDays 1)
      chargeFrom finish minutes workDays holidays fuel next days
    else some days

/-- `request_days`, for at most `fuel` tests of its loop. -/
def requestDays (fuel : Nat) (start finish : Date) (partialMinutes : Option Int)
    (dayMinutes : Int) (workDays : List Int) (holidays : List Date) :
    Option (Except Error (List RequestDay)) :=
  if finish < start then
    some (.error (.request "The end date cannot be before the start date."))
  else if partialMinutes.isSome ∧ start ≠ finish then
    some (.error (.request "Partial hours are only supported for a single-day request."))
  else if ∃ m ∈ partialMinutes, ¬ (0 < m ∧ m ≤ dayMinutes) then
    some (.error (.request s!"A partial request must be between 1 and {dayMinutes} minutes."))
  else do
    let days ← chargeFrom finish (dayCharge partialMinutes dayMinutes) workDays holidays fuel start
      []
    return if days = [] then .error (.request "The request contains no working days.")
      else .ok days

variable {start finish cursor : Date} {minutes : Int} {workDays : List Int} {holidays : List Date}

/-- The loop charges the days that are left: the invariant is that the cursor is
in the calendar and the days before it are done. -/
theorem chargeFrom_eq (hfinish : finish < dateMax) {fuel : Nat} {days : List RequestDay}
    (hcursor : dateMin ≤ cursor) (hfuel : (finish.daysSince cursor + 1).toNat < fuel) :
    chargeFrom finish minutes workDays holidays fuel cursor days
      = some (days ++ chargedDays minutes workDays holidays (finish.daysSince cursor + 1).toNat
          cursor) := by
  induction fuel generalizing cursor days with
  | zero => omega
  | succ fuel ih =>
    simp only [chargeFrom]
    split
    · next hle =>
      have hdays : (finish.daysSince cursor + 1).toNat
          = (finish.daysSince (cursor.addDays 1) + 1).toNat + 1 := by
        have := Date.le_iff.mp hle
        simp only [Date.daysSince, Date.ordinal_addDays]
        omega
      -- the day behind the cursor is a date, for the range ends before the last one
      have hnext : held (cursor.addDays 1) = some (cursor.addDays 1) := by
        have h₁ := Date.le_iff.mp hcursor
        have h₂ := Date.le_iff.mp hle
        have h₃ := Date.lt_iff.mp hfinish
        refine held_of_le ?_ ?_
        · rw [Date.le_iff, Date.ordinal_addDays]
          omega
        · rw [Date.le_iff, Date.ordinal_addDays]
          omega
      have hmin : dateMin ≤ cursor.addDays 1 := (held_eq_some.mp hnext).1
      rw [hnext, hdays]
      show chargeFrom finish minutes workDays holidays fuel (cursor.addDays 1) _ = _
      rw [ih hmin (by omega)]
      simp only [chargedDays]
      split
      · rw [List.append_assoc, List.singleton_append]
      · rfl
    · next hlt =>
      have hdays : (finish.daysSince cursor + 1).toNat = 0 := by
        have := Date.lt_iff.mp (not_le.mp hlt)
        simp only [Date.daysSince]
        omega
      rw [hdays, chargedDays, List.append_nil]

/-- Before the last day of the calendar the loop ends, after one round for each
day of the range and one more test. -/
theorem requestDays_eq {partialMinutes : Option Int} {dayMinutes : Int} {fuel : Nat}
    (hstart : dateMin ≤ start) (hfinish : finish < dateMax)
    (hfuel : (finish.daysSince start + 1).toNat < fuel) :
    requestDays fuel start finish partialMinutes dayMinutes workDays holidays
      = some (TimeOff.requestDays start finish partialMinutes dayMinutes workDays holidays) := by
  unfold requestDays TimeOff.requestDays
  rw [chargeFrom_eq hfinish hstart hfuel]
  split_ifs <;> rfl

end Calendar

/-! ## What is charged

The loop goes over the days from the first to the last and charges those that
qualify; all that can go wrong is checked before it, or is an empty result. -/

/-- Days are charged in their order. -/
theorem chargedDays_pairwise {minutes : Int} {workDays : List Int} {holidays : List Date}
    {fuel : Nat} {cursor : Date} :
    (chargedDays minutes workDays holidays fuel cursor).Pairwise (·.date < ·.date) := by
  induction fuel generalizing cursor with
  | zero => exact List.Pairwise.nil
  | succ fuel ih =>
    simp only [chargedDays]
    split
    · refine List.Pairwise.cons (fun d hd => ?_) ih
      obtain ⟨-, hafter, -⟩ := mem_chargedDays.mp hd
      rw [Date.le_iff, Date.ordinal_addDays] at hafter
      show cursor.ordinal < d.date.ordinal
      omega
    · exact ih

variable {start finish : Date} {partialMinutes : Option Int} {dayMinutes : Int}
  {workDays : List Int} {holidays : List Date}

/-- A working day of the range. -/
def Qualifies (start finish : Date) (workDays : List Int) (holidays : List Date) (d : Date) :
    Prop :=
  start ≤ d ∧ d ≤ finish ∧ d.isoWeekday ∈ workDays ∧ d ∉ holidays

/-- Just the working days of the range are charged. -/
theorem mem_chargedDays_iff {minutes : Int} {d : RequestDay} :
    d ∈ chargedDays minutes workDays holidays (finish.daysSince start + 1).toNat start ↔
      Qualifies start finish workDays holidays d.date ∧ d.minutes = minutes := by
  rw [mem_chargedDays]
  have hrange : start ≤ d.date →
      (d.date.ordinal < start.ordinal + (finish.daysSince start + 1).toNat ↔ d.date ≤ finish) := by
    intro hstart
    rw [Date.le_iff] at hstart ⊢
    simp only [Date.daysSince]
    omega
  unfold Qualifies
  constructor
  · rintro ⟨hminutes, hstart, hfinish, hday⟩
    exact ⟨⟨hstart, (hrange hstart).mp hfinish, hday⟩, hminutes⟩
  · rintro ⟨⟨hstart, hfinish, hday⟩, hminutes⟩
    exact ⟨hminutes, hstart, (hrange hstart).mpr hfinish, hday⟩

/-- Nothing is charged where no day qualifies. -/
theorem chargedDays_eq_nil_iff {minutes : Int} :
    chargedDays minutes workDays holidays (finish.daysSince start + 1).toNat start = [] ↔
      ∀ d, ¬ Qualifies start finish workDays holidays d := by
  rw [List.eq_nil_iff_forall_not_mem]
  constructor
  · intro h d hd
    exact h ⟨d, minutes⟩ (mem_chargedDays_iff.mpr ⟨hd, rfl⟩)
  · intro h d hd
    exact h d.date (mem_chargedDays_iff.mp hd).1

/-- The checks that come before the loop. -/
def Expandable (start finish : Date) (partialMinutes : Option Int) (dayMinutes : Int) : Prop :=
  start ≤ finish ∧ ∀ m ∈ partialMinutes, start = finish ∧ 1 ≤ m ∧ m ≤ dayMinutes

/-- Past the checks the charge is the partial minutes, never zero. -/
theorem dayCharge_eq (h : Expandable start finish partialMinutes dayMinutes) :
    dayCharge partialMinutes dayMinutes = partialMinutes.getD dayMinutes := by
  cases partialMinutes with
  | none => rfl
  | some m =>
    obtain ⟨-, hm, -⟩ := h.2 m rfl
    exact if_neg (by omega)

/-- Past the checks, the days are charged or none qualifies. -/
theorem requestDays_of_expandable (h : Expandable start finish partialMinutes dayMinutes) :
    requestDays start finish partialMinutes dayMinutes workDays holidays
      = (let days := chargedDays (partialMinutes.getD dayMinutes) workDays holidays
          (finish.daysSince start + 1).toNat start
        if days = [] then .error (.request "The request contains no working days.")
        else .ok days) := by
  unfold requestDays
  rw [if_neg (not_lt.mpr h.1), if_neg, if_neg, dayCharge_eq h]
  · rintro ⟨m, hm, hrange⟩
    obtain ⟨-, h₁, h₂⟩ := h.2 m hm
    exact hrange ⟨by omega, h₂⟩
  · rintro ⟨hsome, hne⟩
    obtain ⟨m, hm⟩ := Option.isSome_iff_exists.mp hsome
    exact hne (h.2 m hm).1

/-- Every check that fails is a `RequestError`. -/
theorem requestDays_of_not_expandable (h : ¬ Expandable start finish partialMinutes dayMinutes) :
    ∃ message, requestDays start finish partialMinutes dayMinutes workDays holidays
      = .error (.request message) := by
  unfold requestDays
  by_cases h₁ : finish < start
  · exact ⟨_, if_pos h₁⟩
  rw [if_neg h₁]
  by_cases h₂ : partialMinutes.isSome ∧ start ≠ finish
  · exact ⟨_, if_pos h₂⟩
  rw [if_neg h₂]
  by_cases h₃ : ∃ m ∈ partialMinutes, ¬ (0 < m ∧ m ≤ dayMinutes)
  · exact ⟨_, if_pos h₃⟩
  · refine absurd ⟨not_lt.mp h₁, fun m hm => ?_⟩ h
    push Not at h₂ h₃
    obtain ⟨hpos, hle⟩ := h₃ m hm
    exact ⟨h₂ (Option.isSome_of_mem hm), by omega, hle⟩

/-- The charged days are the working days of the range in order, each for the
partial minutes if given and for a day otherwise. -/
theorem mem_of_requestDays {days : List RequestDay}
    (h : requestDays start finish partialMinutes dayMinutes workDays holidays = .ok days) :
    days.Pairwise (·.date < ·.date) ∧ ∀ d : RequestDay, d ∈ days ↔
      Qualifies start finish workDays holidays d.date ∧
        d.minutes = partialMinutes.getD dayMinutes := by
  by_cases hexpand : Expandable start finish partialMinutes dayMinutes
  · rw [requestDays_of_expandable hexpand] at h
    dsimp only at h
    split at h
    · cases h
    · cases h
      exact ⟨chargedDays_pairwise, fun d => mem_chargedDays_iff⟩
  · obtain ⟨message, herror⟩ : ∃ message,
        requestDays start finish partialMinutes dayMinutes workDays holidays =
          .error (.request message) := requestDays_of_not_expandable hexpand
    rw [herror] at h
    cases h

/-- Every refusal is a `RequestError`, and these are all of them. -/
theorem requestDays_eq_error_iff :
    (∃ message, requestDays start finish partialMinutes dayMinutes workDays holidays
        = .error (.request message)) ↔
      ¬ Expandable start finish partialMinutes dayMinutes ∨
        ∀ d, ¬ Qualifies start finish workDays holidays d := by
  by_cases hexpand : Expandable start finish partialMinutes dayMinutes
  · rw [requestDays_of_expandable hexpand, ← chargedDays_eq_nil_iff]
    constructor
    · rintro ⟨message, h⟩
      refine Or.inr ?_
      by_contra hne
      dsimp only at h
      rw [if_neg hne] at h
      cases h
    · rintro (hno | hnil)
      · exact absurd hexpand hno
      · exact ⟨_, if_pos hnil⟩
  · exact ⟨fun _ => Or.inl hexpand, fun _ => requestDays_of_not_expandable hexpand⟩

/-- The checks, one by one. -/
theorem not_expandable_iff :
    ¬ Expandable start finish partialMinutes dayMinutes ↔
      finish < start ∨ (partialMinutes.isSome ∧ start ≠ finish) ∨
        ∃ m ∈ partialMinutes, m < 1 ∨ dayMinutes < m := by
  unfold Expandable
  cases partialMinutes with
  | none => simp
  | some m =>
    simp only [Option.mem_some_iff, forall_eq', exists_eq_left', Option.isSome_some, true_and,
      not_and_or, not_le]

/-- Expansion ends in one way or the other. -/
theorem requestDays_ok_or_error :
    (∃ days, requestDays start finish partialMinutes dayMinutes workDays holidays = .ok days) ∨
      ∃ message, requestDays start finish partialMinutes dayMinutes workDays holidays
        = .error (.request message) := by
  cases h : requestDays start finish partialMinutes dayMinutes workDays holidays with
  | ok days => exact Or.inl ⟨days, rfl⟩
  | error e =>
    refine Or.inr ?_
    rw [← h]
    by_cases hexpand : Expandable start finish partialMinutes dayMinutes
    · rw [requestDays_of_expandable hexpand] at h ⊢
      dsimp only at h ⊢
      split at h
      · next hnil => exact ⟨_, if_pos hnil⟩
      · cases h
    · exact requestDays_of_not_expandable hexpand

/-- Expansion ends and charges exactly the working days of the range, or refuses
the range, the partial minutes or a range without working days. So the total of
every stored request is what its days add up to, and positive. -/
theorem requestDays_exact :
    (∀ (start finish : Date) (partialMinutes : Option Int) (dayMinutes : Int)
        (workDays : List Int) (holidays : List Date),
      Calendar.dateMin ≤ start → finish < Calendar.dateMax → 0 < dayMinutes →
        ∃ result, (∃ enough, ∀ fuel, enough ≤ fuel →
            Calendar.requestDays fuel start finish partialMinutes dayMinutes workDays holidays
              = some result) ∧
          ((∃ days, result = .ok days) ∨ ∃ message, result = .error (.request message)) ∧
          (∀ days, result = .ok days → days.Pairwise (·.date < ·.date) ∧
            ∀ d : RequestDay, d ∈ days ↔
              (start ≤ d.date ∧ d.date ≤ finish ∧ d.date.isoWeekday ∈ workDays ∧
                d.date ∉ holidays) ∧ d.minutes = partialMinutes.getD dayMinutes) ∧
          ((∃ message, result = .error (.request message)) ↔
            finish < start ∨ (partialMinutes.isSome ∧ start ≠ finish) ∨
              (∃ m ∈ partialMinutes, m < 1 ∨ dayMinutes < m) ∨
              ∀ d, ¬ (start ≤ d ∧ d ≤ finish ∧ d.isoWeekday ∈ workDays ∧ d ∉ holidays))) ∧
    ∀ (dir : Directory) (db : Db), Reachable dir db → ∀ r ∈ db.requests.rows,
      r.totalMinutes = (r.days.map (·.minutes)).sum ∧ 0 < r.totalMinutes := by
  constructor
  · intro start finish partialMinutes dayMinutes workDays holidays hstart hfinish _
    refine ⟨requestDays start finish partialMinutes dayMinutes workDays holidays,
      ⟨(finish.daysSince start + 1).toNat + 1, fun fuel hfuel => ?_⟩, requestDays_ok_or_error,
      fun days => mem_of_requestDays, ?_⟩
    · exact Calendar.requestDays_eq hstart hfinish hfuel
    · rw [requestDays_eq_error_iff, not_expandable_iff, or_assoc, or_assoc]
      rfl
  · intro dir db h r hr
    have hwf := h.requestsWellFormed r hr
    exact ⟨hwf.total_eq, hwf.total_pos⟩

/-- A range from Friday to Monday is expanded, and a request for two days costs
960 minutes. -/
theorem requestDays_exact_of_days :
    (∃ result enough, ∀ fuel, enough ≤ fuel →
      Calendar.requestDays fuel (ofYmd 2026 5 22) (ofYmd 2026 5 25) none 480 [1, 2, 3, 4, 5]
        [ofYmd 2026 5 25] = some result) ∧
    ∃ db, Reachable Demo.directory db ∧ ∃ r ∈ db.requests.rows,
      r.totalMinutes = 960 ∧ 960 = (r.days.map (·.minutes)).sum := by
  constructor
  · obtain ⟨result, hreturns, -⟩ := requestDays_exact.1 (ofYmd 2026 5 22) (ofYmd 2026 5 25) none 480
      [1, 2, 3, 4, 5] [ofYmd 2026 5 25] (by decide) (by decide) (by decide)
    exact ⟨result, hreturns⟩
  · have hrun : (Op.runAll Demo.directory
        (Demo.openPolicy { effectiveFrom := ofYmd 2026 1 1, kind := .UNLIMITED } [] ++
          [Demo.request Demo.requestId (ofYmd 2026 6 1) (ofYmd 2026 6 2)]) .empty).passes
        (fun r => ∃ x ∈ r.2.requests.rows, x.totalMinutes = 960) = true := by
      decide +kernel
    obtain ⟨⟨l, db⟩, hrun, htotal⟩ := Except.ok_of_passes hrun
    obtain ⟨r, hr, htotal⟩ := of_decide_eq_true htotal
    have hdb : Reachable Demo.directory db := ⟨l, run_of_runAll hrun⟩
    obtain ⟨hsum, -⟩ := requestDays_exact.2 Demo.directory db hdb r hr
    exact ⟨db, hdb, r, hr, htotal, htotal.symm.trans hsum⟩

end TimeOff
