import TimeOff.Eligibility.Reconcile
import TimeOff.Lib.Keyed
import TimeOff.Requests.Lifecycle

/-!
# The holiday calendar

Admins set holidays, and a refresh adds the statutory ones of a year. The
calendar is a map from companies and days to holidays: an admin's entry replaces
what is there, a refresh only fills days that are free. After any operations the
stored rows are that map (`calendar_tried`), so what an admin set stays until an
admin sets it again (`holidays_kept`).

The map is the abstract side of a small refinement. Neither of the two
operations fails, since rewriting a row keeps keys distinct and filling adds
only new ones; the library on keyed lists says what is found afterwards, which
is what `HolidayCalendar.after` says of the map (`calendar_after`). All other
operations leave holidays alone. The listing of a year is then the days of the
map in that year, in order (**`holidays_listed`**).
-/

namespace TimeOff

open Gregorian

/-- A company has one holiday a day. -/
def Holiday.key (h : Holiday) : String × Date := (h.companyId, h.date)

namespace HolidayService

/-- A holiday as a refresh enters it. -/
def statutoryHoliday (companyId : String) (entry : Date × String) : Holiday where
  companyId := companyId
  date := entry.1
  name := entry.2
  observed := (entry.2.toLower.splitOn "observed").length ≠ 1

/-- `list_for_year` -/
def listForYear (c : Catalog) (companyId : String) (year : Int) : List Holiday :=
  (c.holidays.rows.filter fun h => h.companyId = companyId ∧ ofYmd year 1 1 ≤ h.date ∧
    h.date ≤ ofYmd year 12 31).insertionSort fun g h => g.date ≤ h.date

/-- Rows that meet their constraint are stored. -/
theorem exists_constrained {ρ : Type} {C : List ρ → Prop} [DecidablePred C] {rows : List ρ}
    (h : C rows) : ∃ t : Relation C, constrained rows = .ok t ∧ t.rows = rows := by
  refine ⟨⟨rows, h⟩, ?_, rfl⟩
  simp only [constrained, Relation.set?]
  rw [dif_pos h]

/-- Adding a holiday never fails. -/
theorem addHoliday_run (c : Catalog) (holiday : Holiday) :
    ∃ holidays, addHoliday c holiday = .ok { c with holidays := holidays } ∧
      holidays.rows = Keyed.upsert Holiday.key c.holidays.rows holiday := by
  have hnodup : ((Keyed.upsert Holiday.key c.holidays.rows holiday).map Holiday.key).Nodup :=
    Keyed.nodup_upsert c.holidays.holds
  obtain ⟨holidays, hset, hholidays⟩ := exists_constrained
    (C := fun rows : List Holiday => (rows.map fun h => (h.companyId, h.date)).Nodup) hnodup
  refine ⟨holidays, ?_, hholidays⟩
  have honDay : ∀ h : Holiday, (h.companyId = holiday.companyId ∧ h.date = holiday.date) ↔
      h.key = holiday.key := fun h => Prod.mk.injEq .. ▸ Iff.rfl
  have hrows : (if (c.holidays.rows.any fun h =>
        h.companyId = holiday.companyId ∧ h.date = holiday.date) = true then
      c.holidays.rows.map fun h =>
        if decide (h.companyId = holiday.companyId ∧ h.date = holiday.date) = true
          then holiday else h
      else c.holidays.rows ++ [holiday]) = Keyed.upsert Holiday.key c.holidays.rows holiday := by
    simp only [Keyed.upsert, honDay, List.any_eq_true, decide_eq_true_eq]
  simp only [addHoliday]
  rw [hrows]
  exact Except.bind_eq_ok.mpr ⟨holidays, hset, rfl⟩

/-- Nor does a refresh. -/
theorem ensureYear_run (c : Catalog) (companyId : String) (statutory : List (Date × String)) :
    ∃ holidays, ensureYear c companyId statutory = .ok { c with holidays := holidays } ∧
      holidays.rows = Keyed.fills Holiday.key c.holidays.rows
        (statutory.map (statutoryHoliday companyId)) := by
  have hnodup : ((Keyed.fills Holiday.key c.holidays.rows
      (statutory.map (statutoryHoliday companyId))).map Holiday.key).Nodup :=
    Keyed.nodup_fills c.holidays.holds
  obtain ⟨holidays, hset, hholidays⟩ := exists_constrained
    (C := fun rows : List Holiday => (rows.map fun h => (h.companyId, h.date)).Nodup) hnodup
  refine ⟨holidays, ?_, hholidays⟩
  have hrows : statutory.foldl (fun rows entry =>
      if ∃ h ∈ rows, h.companyId = companyId ∧ h.date = entry.1 then rows
      else rows ++ [⟨companyId, entry.1, entry.2, (entry.2.toLower.splitOn "observed").length ≠ 1⟩])
      c.holidays.rows
      = Keyed.fills Holiday.key c.holidays.rows (statutory.map (statutoryHoliday companyId)) := by
    simp only [Keyed.fills]
    rw [List.foldl_map]
    refine congrArg (fun f => statutory.foldl f c.holidays.rows) ?_
    funext rows entry
    have honDay : ∀ h : Holiday, (h.companyId = companyId ∧ h.date = entry.1) ↔
        h.key = (statutoryHoliday companyId entry).key := fun h => Prod.mk.injEq .. ▸ Iff.rfl
    simp only [Keyed.fill, honDay]
    rfl
  simp only [ensureYear]
  rw [hrows]
  exact Except.bind_eq_ok.mpr ⟨holidays, hset, rfl⟩

end HolidayService

/-- Only the two operations on holidays touch them. -/
theorem CatalogOp.holidays_eq {dir : Directory} {c d : Catalog} {op : CatalogOp}
    (h : op.run dir c = .ok d) (hadd : ∀ holiday, op ≠ .addHoliday holiday)
    (hensure : ∀ companyId statutory, op ≠ .ensureYear companyId statutory) :
    d.holidays = c.holidays := by
  cases op with
  | createCategory category =>
    obtain ⟨_, -, h⟩ := Except.bind_eq_ok.mp h
    cases h
    rfl
  | createPolicy companyId policyId versionId name categoryId fields rules =>
    obtain ⟨_, _, rfl, -⟩ := PolicyService.create_eq h
    rfl
  | updatePolicy policyId versionId name fields rules =>
    obtain ⟨_, -, h⟩ := Except.bind_eq_ok.mp h
    obtain ⟨_, _, rfl, -⟩ := PolicyService.update_eq h
    rfl
  | assign policyId effectiveFrom employees =>
    obtain ⟨_, -, h⟩ := Except.bind_eq_ok.mp h
    obtain ⟨-, _, rfl, -⟩ := AssignmentService.assign_ok h
    rfl
  | endAssignment assignmentId effectiveTo =>
    obtain ⟨_, -, h⟩ := Except.bind_eq_ok.mp h
    obtain ⟨_, rfl, -⟩ := AssignmentService.endAssignment_ok h
    rfl
  | createGroup companyId id name employeeIds =>
    obtain ⟨_, _, rfl⟩ := GroupService.create_eq h
    rfl
  | setPolicyAudience policyId allEmployees groupIds effectiveFrom newId =>
    obtain ⟨_, -, h⟩ := Except.bind_eq_ok.mp h
    obtain ⟨-, _, _, -, -, h⟩ := GroupService.setPolicyAudience_ok h
    obtain ⟨-, _, rfl, -⟩ := GroupService.reconcilePolicy_ok h
    rfl
  | replaceMembers groupId employeeIds effectiveFrom newId =>
    obtain ⟨_, -, h⟩ := Except.bind_eq_ok.mp h
    obtain ⟨_, -, h⟩ := Except.bind_eq_ok.mp h
    obtain ⟨_, -, h⟩ := Except.bind_eq_ok.mp h
    obtain ⟨_, -, h⟩ := Except.bind_eq_ok.mp h
    obtain ⟨_, rfl⟩ := GroupService.reconcilePolicies_ok h
    rfl
  | setEmployeeGroup companyId employeeId groupId effectiveFrom newId =>
    obtain ⟨_, -, h⟩ := Except.bind_eq_ok.mp h
    split at h
    · cases h
    dsimp only at h
    split at h
    · cases h
      rfl
    · obtain ⟨_, -, h⟩ := Except.bind_eq_ok.mp h
      obtain ⟨_, rfl⟩ := GroupService.reconcilePolicies_ok h
      rfl
  | removeGroup groupId effectiveFrom newId =>
    obtain ⟨_, -, h⟩ := Except.bind_eq_ok.mp h
    obtain ⟨_, -, h⟩ := Except.bind_eq_ok.mp h
    obtain ⟨_, hreconcile, h⟩ := Except.bind_eq_ok.mp h
    obtain ⟨_, -, h⟩ := Except.bind_eq_ok.mp h
    obtain ⟨_, -, h⟩ := Except.bind_eq_ok.mp h
    obtain ⟨_, rfl⟩ := GroupService.reconcilePolicies_ok hreconcile
    cases h
    rfl
  | addHoliday holiday => exact absurd rfl (hadd holiday)
  | ensureYear companyId statutory => exact absurd rfl (hensure companyId statutory)

/-! ## The calendar

What the table is for: a holiday for each company and day at most, where entries
replace and refreshes fill gaps. -/

/-- At most one holiday for each company and day. -/
abbrev HolidayCalendar := String × Date → Option Holiday

/-- What an operation does to the calendar. -/
def HolidayCalendar.after (calendar : HolidayCalendar) : Op → HolidayCalendar
  | .catalog (.addHoliday holiday) => Function.update calendar holiday.key (some holiday)
  | .catalog (.ensureYear companyId statutory) => fun day => (calendar day).or
      (Keyed.find Holiday.key (statutory.map (HolidayService.statutoryHoliday companyId)) day)
  | _ => calendar

/-- The calendar that is stored. -/
def Catalog.calendar (c : Catalog) : HolidayCalendar := Keyed.find Holiday.key c.holidays.rows

/-- An operation that is none of the two keeps the holidays. -/
theorem Effect.holidays_eq {dir : Directory} {db db' : Db} {op : Op} (h : Effect dir db op db')
    (hadd : ∀ holiday, op ≠ .catalog (.addHoliday holiday))
    (hensure : ∀ companyId statutory, op ≠ .catalog (.ensureYear companyId statutory)) :
    db'.catalog.holidays = db.catalog.holidays := by
  cases h with
  | catalog hrun =>
    exact CatalogOp.holidays_eq hrun (fun holiday hop => hadd holiday (hop ▸ rfl))
      fun companyId statutory hop => hensure companyId statutory (hop ▸ rfl)
  | _ => simp

/-- One operation, accepted or not, does to the stored calendar what it should. -/
theorem calendar_after (dir : Directory) (db : Db) (op : Op) :
    (op.tried dir db).catalog.calendar = db.catalog.calendar.after op := by
  -- no other operation writes holidays, whether it is accepted or not
  have hsame : (∀ holiday, op ≠ .catalog (.addHoliday holiday)) →
      (∀ companyId statutory, op ≠ .catalog (.ensureYear companyId statutory)) →
      (op.tried dir db).catalog.calendar = db.catalog.calendar := by
    intro hadd hensure
    simp only [Op.tried, Catalog.calendar]
    split
    · next d hrun => rw [(effect_of_step hrun).holidays_eq hadd hensure]
    · rfl
  cases op with
  | catalog op =>
    cases op with
    | addHoliday holiday =>
      obtain ⟨holidays, hrun, hrows⟩ := HolidayService.addHoliday_run db.catalog holiday
      have hstep : Op.run dir (.catalog (.addHoliday holiday)) db
          = .ok { db with catalog := { db.catalog with holidays := holidays } } :=
        congrArg (Except.map _) hrun
      simp only [Op.tried, Catalog.calendar, HolidayCalendar.after]
      rw [hstep]
      exact (congrArg (Keyed.find Holiday.key) hrows).trans Keyed.find_upsert
    | ensureYear companyId statutory =>
      obtain ⟨holidays, hrun, hrows⟩ :=
        HolidayService.ensureYear_run db.catalog companyId statutory
      have hstep : Op.run dir (.catalog (.ensureYear companyId statutory)) db
          = .ok { db with catalog := { db.catalog with holidays := holidays } } :=
        congrArg (Except.map _) hrun
      simp only [Op.tried, Catalog.calendar, HolidayCalendar.after]
      rw [hstep]
      exact (congrArg (Keyed.find Holiday.key) hrows).trans (funext fun _ => Keyed.find_fills)
    | _ => exact hsame (by simp) (by simp)
  | _ => exact hsame (by simp) (by simp)

/-- And so do any operations in turn. -/
theorem calendar_tried (dir : Directory) (ops : List Op) (db : Db) :
    (ops.foldl (Op.tried dir) db).catalog.calendar
      = ops.foldl HolidayCalendar.after db.catalog.calendar := by
  induction ops generalizing db with
  | nil => rfl
  | cons op ops ih =>
    rw [List.foldl_cons, List.foldl_cons, ih, calendar_after]

namespace HolidayCalendar

variable {calendar : HolidayCalendar} {holiday : Holiday}

/-- Only an admin changes a holiday that is there. -/
theorem after_keeps {op : Op} (h : calendar holiday.key = some holiday)
    (hop : ∀ other : Holiday, op = .catalog (.addHoliday other) → other.key ≠ holiday.key) :
    calendar.after op holiday.key = some holiday := by
  cases op with
  | catalog op =>
    cases op with
    | addHoliday other =>
      show Function.update calendar other.key (some other) holiday.key = some holiday
      rw [Function.update_of_ne (hop other rfl).symm]
      exact h
    | ensureYear companyId statutory =>
      show (calendar holiday.key).or _ = some holiday
      rw [h, Option.some_or]
    | _ => exact h
  | _ => exact h

/-- So it stays, whatever else is done. -/
theorem afters_keep {ops : List Op} (h : calendar holiday.key = some holiday)
    (hops : ∀ other : Holiday, .catalog (.addHoliday other) ∈ ops → other.key ≠ holiday.key) :
    ops.foldl after calendar holiday.key = some holiday := by
  induction ops generalizing calendar with
  | nil => exact h
  | cons op ops ih =>
    refine ih (after_keeps h fun other hop => ?_) fun other hother =>
      hops other (List.mem_cons_of_mem _ hother)
    exact hops other (hop ▸ List.mem_cons_self ..)

end HolidayCalendar

/-! ## The listing of a year -/

/-- A year is a range of days. -/
theorem year_eq_iff {d : Date} {y : Int} : d.year = y ↔ ofYmd y 1 1 ≤ d ∧ d ≤ ofYmd y 12 31 := by
  have hfirst : (ofYmd y 1 1).ordinal = daysBeforeYear y + 1 := by
    rw [ordinal_ofYmd, daysBeforeMonth_one]
    omega
  have hlast : (ofYmd y 12 31).ordinal = daysBeforeYear (y + 1) := by
    rw [ordinal_ofYmd, daysBeforeYear_succ, ← daysBeforeMonth_thirteen]
    cases isLeap y <;> (simp only [daysBeforeMonth]; omega)
  obtain ⟨hbefore, hafter⟩ := yearOf_bounds d.ordinal
  rw [Date.le_iff, Date.le_iff, hfirst, hlast]
  constructor
  · rintro rfl
    exact ⟨hbefore, hafter⟩
  · rintro ⟨h₁, h₂⟩
    exact yearOf_unique (by omega) h₂

namespace HolidayService

variable {c : Catalog} {companyId : String} {year : Int} {h : Holiday}

/-- What is listed is what the calendar has for the company and the year. -/
theorem mem_listForYear : h ∈ listForYear c companyId year ↔
    h.companyId = companyId ∧ h.date.year = year ∧ c.calendar h.key = some h := by
  have hfound : c.calendar h.key = some h ↔ h ∈ c.holidays.rows :=
    (Keyed.find_eq_some c.holidays.holds).trans (and_iff_left rfl)
  rw [hfound, year_eq_iff, listForYear, List.mem_insertionSort, List.mem_filter,
    decide_eq_true_eq]
  tauto

/-- In the order of the days. -/
theorem listForYear_pairwise : (listForYear c companyId year).Pairwise (·.date < ·.date) := by
  have hsorted : (listForYear c companyId year).Pairwise fun g h => g.date ≤ h.date :=
    List.pairwise_insertionSort _ _
  have hdistinct : (listForYear c companyId year).Pairwise fun g h => g.key ≠ h.key := by
    have hrows : c.holidays.rows.Pairwise fun g h => g.key ≠ h.key :=
      List.pairwise_map.mp c.holidays.holds
    exact ((List.perm_insertionSort _ _).pairwise_iff fun hne => Ne.symm hne).mpr (hrows.filter _)
  refine (hsorted.and hdistinct).imp_of_mem fun {g h} hg hh hboth => ?_
  obtain ⟨hle, hne⟩ := hboth
  obtain ⟨hcompany, -⟩ := mem_listForYear.mp hg
  obtain ⟨hcompany', -⟩ := mem_listForYear.mp hh
  refine lt_of_le_of_ne hle fun hdate => hne ?_
  simp only [Holiday.key]
  rw [hcompany, hcompany', hdate]

end HolidayService

/-- **The stored holidays are the calendar**: whatever operations are tried, what is
found for a company and a day is what the admins' entries and the refreshes
among them make of an empty calendar, and the listing of a year has the
calendar's holidays of that year, each day once and in order. -/
theorem holidays_listed (dir : Directory) (ops : List Op) :
    (ops.foldl (Op.tried dir) .empty).catalog.calendar
        = ops.foldl HolidayCalendar.after (fun _ => none) ∧
      ∀ companyId year,
        (HolidayService.listForYear (ops.foldl (Op.tried dir) .empty).catalog companyId
          year).Pairwise (·.date < ·.date) ∧
        ∀ holiday, holiday ∈ HolidayService.listForYear (ops.foldl (Op.tried dir) .empty).catalog
            companyId year ↔
          holiday.companyId = companyId ∧ holiday.date.year = year ∧
            ops.foldl HolidayCalendar.after (fun _ => none) holiday.key = some holiday := by
  have hcalendar : (ops.foldl (Op.tried dir) .empty).catalog.calendar
      = ops.foldl HolidayCalendar.after fun _ => none := calendar_tried dir ops .empty
  refine ⟨hcalendar, fun companyId year => ⟨HolidayService.listForYear_pairwise, fun holiday => ?_⟩⟩
  rw [HolidayService.mem_listForYear, hcalendar]

/-- **A refresh never undoes an admin**: what an admin set is still there after any
operations among which no admin set a holiday of the company for that day. -/
theorem holidays_kept {dir : Directory} {earlier later : List Op} {holiday : Holiday}
    (h : ∀ other : Holiday, .catalog (.addHoliday other) ∈ later → other.key ≠ holiday.key) :
    holiday ∈ HolidayService.listForYear
      ((earlier ++ .catalog (.addHoliday holiday) :: later).foldl (Op.tried dir) .empty).catalog
      holiday.companyId holiday.date.year := by
  refine HolidayService.mem_listForYear.mpr ⟨rfl, rfl, ?_⟩
  rw [calendar_tried, List.foldl_append, List.foldl_cons]
  refine HolidayCalendar.afters_keep ?_ h
  exact Function.update_self ..

namespace Demo

/-- The company's name for New Year's Day. -/
def companyDay : Holiday := ⟨"cmp_warp_demo", ofYmd 2026 1 1, "Company day", false⟩

/-- A refresh of 2026. -/
def refresh : Op := .catalog (.ensureYear "cmp_warp_demo" [(ofYmd 2026 1 1, "New Year's Day")])

end Demo

/-- The statutory New Year's Day does not replace the company's own. -/
theorem company_day_kept :
    Demo.companyDay ∈ HolidayService.listForYear
      (([Demo.refresh] ++ .catalog (.addHoliday Demo.companyDay) :: [Demo.refresh]).foldl
        (Op.tried Demo.directory) .empty).catalog "cmp_warp_demo" Demo.companyDay.date.year := by
  have hlater : ∀ other : Holiday, .catalog (.addHoliday other) ∈ [Demo.refresh] →
      other.key ≠ Demo.companyDay.key := by
    intro other hother
    cases List.mem_singleton.mp hother
  exact holidays_kept hlater

end TimeOff
