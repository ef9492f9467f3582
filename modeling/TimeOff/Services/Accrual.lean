import TimeOff.Domain.Accrual
import TimeOff.Services.Ledger

/-!
# Accrual service

The scheduled job and the payroll job, statement by statement.

`_post_accrual` takes its arguments as a `Posting`. It reads the balance up to
the credit's date, enters the credit, and enters what the cap does not let stand
of the two together as a forfeiture, under a source of its own; the count is of
the entries that were new. Whether the credit itself was new is not asked.

The scheduled job is four nested loops: over the assignments that have begun,
the versions of the policy, their rules and the periods up to the date of the
run. `RuleScope` is what the innermost loop has in scope. A period is credited
when its date has come and the version is the one in force on that date
(`RuleScope.decision`), by the rule that the tenure at the beginning of the
period selects. The payroll job credits the worked minutes by the rules of the
version in force at the end of the pay period.
-/

namespace TimeOff

open Gregorian

/-- The arguments of `_post_accrual`. -/
structure Posting where
  companyId : String
  employeeId : String
  policyId : Uuid
  policyVersionId : Uuid
  effectiveDate : Date
  sourceType : SourceType
  sourceId : String
  amount : Int
  maxBalanceMinutes : Option Int
  note : String
deriving DecidableEq, Repr

namespace Posting

/-- The account that is credited. -/
def account (p : Posting) : Account := ⟨p.employeeId, p.policyId⟩

/-- The entry of the credit. -/
def credit (p : Posting) : LedgerEntry where
  companyId := p.companyId
  employeeId := p.employeeId
  policyId := p.policyId
  policyVersionId := p.policyVersionId
  entryType := .ACCRUAL
  amountMinutes := p.amount
  effectiveDate := p.effectiveDate
  sourceType := p.sourceType
  sourceId := p.sourceId
  note := p.note

/-- The entry of a loss. -/
def forfeiture (p : Posting) (maxBalanceMinutes forfeited : Int) : LedgerEntry where
  companyId := p.companyId
  employeeId := p.employeeId
  policyId := p.policyId
  policyVersionId := p.policyVersionId
  entryType := .FORFEITURE
  amountMinutes := -forfeited
  effectiveDate := p.effectiveDate
  sourceType := p.sourceType
  sourceId := p.sourceId ++ ":forfeiture"
  note := s!"Balance cap of {maxBalanceMinutes} minutes"

/-- The source of the posting's cap loss. -/
def lossKey (p : Posting) : SourceKey := (p.sourceType, p.sourceId ++ ":forfeiture")

/-- The cap loss that makes the balance fit, when the balance before was
`before`. -/
def loss (p : Posting) (before : Int) : Option LedgerEntry :=
  p.maxBalanceMinutes.bind fun cap =>
    let forfeited := max (before + p.amount - cap) 0
    if forfeited ≠ 0 then some (p.forfeiture cap forfeited) else none

/-- Nothing is lost when the amount fits under the cap. -/
theorem loss_eq_none_iff {p : Posting} {before : Int} :
    p.loss before = none ↔ ∀ cap ∈ p.maxBalanceMinutes, before + p.amount ≤ cap := by
  simp only [loss]
  cases p.maxBalanceMinutes with
  | none => simp
  | some cap =>
    dsimp only [Option.bind_some]
    simp only [Option.mem_def, Option.some.injEq, forall_eq']
    split
    · next hne =>
      constructor
      · nofun
      · intro hle
        omega
    · next heq =>
      constructor
      · intro _
        omega
      · intro _
        rfl

/-- What is lost is what does not fit. -/
theorem loss_eq_some {p : Posting} {before : Int} {e : LedgerEntry} (h : p.loss before = some e) :
    ∃ cap ∈ p.maxBalanceMinutes, cap < before + p.amount ∧
      e = p.forfeiture cap (before + p.amount - cap) := by
  unfold loss at h
  obtain ⟨cap, hcap, h⟩ := Option.bind_eq_some_iff.mp h
  dsimp only at h
  split at h
  · next hne =>
    cases h
    have hpos : 0 < before + p.amount - cap := by omega
    exact ⟨cap, hcap, by omega, by rw [max_eq_left (le_of_lt hpos)]⟩
  · cases h

/-- The source of a loss is not that of the credit. -/
theorem lossKey_ne (p : Posting) : p.lossKey ≠ p.credit.key := by
  intro h
  have hlength := congrArg (fun k : SourceKey => k.2.length) h
  simp [lossKey, LedgerEntry.key, credit] at hlength

/-- The entries a posting can post: its credit and its cap loss. -/
def Posts (p : Posting) (e : LedgerEntry) : Prop :=
  e = p.credit ∨ ∃ cap ∈ p.maxBalanceMinutes, ∃ forfeited, 0 < forfeited ∧
    e = p.forfeiture cap forfeited

/-- What a posting enters is its credit or its loss. -/
theorem posts_of_mem (p : Posting) {before : Int} {e : LedgerEntry}
    (h : e ∈ p.credit :: (p.loss before).toList) : p.Posts e := by
  rcases List.mem_cons.mp h with rfl | h
  · exact Or.inl rfl
  · obtain ⟨cap, hcap, hlt, rfl⟩ := loss_eq_some (Option.mem_toList.mp h)
    exact Or.inr ⟨cap, hcap, _, by omega, rfl⟩

/-- Both are under the type of the posting. -/
theorem Posts.sourceType {p : Posting} {e : LedgerEntry} (h : p.Posts e) :
    e.sourceType = p.sourceType := by
  rcases h with rfl | ⟨_, _, _, _, rfl⟩ <;> rfl

theorem Posts.account {p : Posting} {e : LedgerEntry} (h : p.Posts e) : e.account = p.account := by
  rcases h with rfl | ⟨_, _, _, _, rfl⟩ <;> rfl

end Posting

namespace AccrualService

/-- `_post_accrual` -/
def postAccrual (p : Posting) : Tx Int := do
  let before : Int ← Tx.query (.balance p.account (some p.effectiveDate))
  let created ← LedgerService.post p.credit
  match p.maxBalanceMinutes with
  | none => return created
  | some cap =>
    let forfeited := max (before + p.amount - cap) 0
    if forfeited ≠ 0 then
      let more ← LedgerService.post (p.forfeiture cap forfeited)
      return created + more
    else return created

/-- The source id of a scheduled credit. -/
def scheduledSource (assignmentId ruleId : Uuid) (periodStart : Date) : String :=
  assignmentId.text ++ ":" ++ ruleId.text ++ ":" ++ isoformat periodStart

/-- The source id of a payroll credit. -/
def payrollSource (payrollRunId employeeId : String) (ruleId : Uuid) : String :=
  payrollRunId ++ ":" ++ employeeId ++ ":" ++ ruleId.text

/-- The rules of a version that apply at a tenure. -/
def eligibleRules (version : PolicyVersion) (method : AccrualMethod) (tenure : Int) :
    List AccrualRule :=
  version.rules.filter fun candidate =>
    candidate.method = method ∧ candidate.minTenureMonths ≤ tenure

/-- `max(eligible, key=…)`: the first of the highest tiers. -/
def selectedRule (eligible : List AccrualRule) : Except Error AccrualRule :=
  match eligible.maxOn? (·.minTenureMonths) with
  | some rule => .ok rule
  | none => .error (.value "max() iterable argument is empty")

/-! ## The scheduled job

Loops over assignments, versions, rules and periods. Each body is a definition
of its own, and `RuleScope` holds the variables that the inner ones share. -/

/-- What the loops of the job have in scope when they reach a rule. -/
structure RuleScope where
  companyId : String
  employee : Employee
  assignment : PolicyAssignment
  version : PolicyVersion
  rule : AccrualRule
  frequency : Schedule
  eligibleFrom : Date
  through : Date

namespace RuleScope

variable (s : RuleScope)

/-- The first day that can be credited by the version. -/
def first : Date := max s.eligibleFrom s.version.effectiveFrom

/-- The date a period is credited on. -/
def effective (period : Period) : Date :=
  let nominal := if s.rule.accruesAt = some .START_OF_PERIOD then period.start else period.finish
  max nominal s.first

/-- What the rule is worth for a period. -/
def amount (period : Period) : Int :=
  scheduledAmount s.rule.amount s.rule.unit period s.eligibleFrom s.version.newHireProration
    s.employee.workMinutesPerDay

/-- The arguments of `_post_accrual` for a period. -/
def posting (period : Period) : Posting where
  companyId := s.companyId
  employeeId := s.assignment.employeeId
  policyId := s.assignment.policyId
  policyVersionId := s.version.id
  effectiveDate := s.effective period
  sourceType := .SCHEDULED_ACCRUAL
  sourceId := scheduledSource s.assignment.id s.rule.id period.start
  amount := s.amount period
  maxBalanceMinutes := s.version.maxBalanceMinutes
  note := Decimal.fixed 4 s.rule.amount ++ " " ++ s.rule.unit.value.toLower ++ " per " ++
    s.frequency.value.toLower

/-- What is posted for a period whose credit date has come, when `active` is
the version in force on that date. -/
def decision (period : Period) (active : Option PolicyVersion) : Except Error (Option Posting) :=
  if active.map (·.id) ≠ some s.version.id then .ok none
  else do
    let tenure := completedTenureMonths s.employee.startDate period.start
    let selected ← selectedRule (eligibleRules s.version .TIME tenure)
    if selected.id ≠ s.rule.id then .ok none
    else if s.amount period = 0 then .ok none
    else .ok (some (s.posting period))

end RuleScope

/-- Post what a decision says. -/
def postDecision (created : Int) : Except Error (Option Posting) → Tx Int
  | .error e => .raise e
  | .ok none => return created
  | .ok (some p) => do
    let more ← postAccrual p
    return created + more

/-- The body of the loop over the periods. -/
def accruePeriod (s : RuleScope) (created : Int) (period : Period) : Tx Int :=
  if s.through < s.effective period then return created
  else do
    let active ← Tx.query (.versionEffectiveOn s.assignment.policyId (s.effective period))
    postDecision created (s.decision period active)

/-- The scope of a rule of `version`, if the scheduled job runs it. -/
def ruleScope (companyId : String) (asOf : Date) (employee : Employee)
    (assignment : PolicyAssignment) (version : PolicyVersion) (rule : AccrualRule) :
    Option RuleScope :=
  match rule.method, rule.frequency with
  | .TIME, some frequency => some
    { companyId := companyId
      employee := employee
      assignment := assignment
      version := version
      rule := rule
      frequency := frequency
      eligibleFrom := max employee.startDate assignment.effectiveFrom
      through := min asOf (assignment.effectiveTo.getD asOf) }
  | _, _ => none

/-- The loop over the periods of a rule. -/
def accrueRule (company : Company) (scope : Option RuleScope) (created : Int) : Tx Int :=
  match scope with
  | none => return created
  | some s => do
    let periods ← Tx.lift
      (iterPeriods s.first s.through s.frequency (some company.payPeriodAnchor))
    periods.foldlM (accruePeriod s) created

/-- The loops over the versions and rules of an assignment. -/
def accrueAssignment (dir : Directory) (companyId : String) (company : Company) (asOf : Date)
    (created : Int) (assignment : PolicyAssignment) : Tx Int := do
  let employee ← Tx.lift (dir.employee assignment.employeeId)
  let versions : List PolicyVersion ← Tx.query (.versions assignment.policyId)
  versions.foldlM (fun created version =>
    version.rules.foldlM (fun created rule =>
      accrueRule company (ruleScope companyId asOf employee assignment version rule) created)
      created) created

/-- `run_scheduled` -/
def runScheduled (dir : Directory) (companyId : String) (asOf : Date) : Tx JobRun := do
  let company ← Tx.lift (dir.company companyId)
  let assignments : List PolicyAssignment ← Tx.query (.assignmentsBegun companyId asOf)
  let created ← assignments.foldlM (accrueAssignment dir companyId company asOf) 0
  recordRun ⟨companyId, .SCHEDULED, isoformat asOf, "SUCCESS", created⟩

/-! ## The payroll job

Loops over the employees with minutes, over their assignments on the last day of
the payroll period, and over the rules of the version in force. -/

/-- What the payroll job posts for one rule of the version in force. -/
def payrollDecision (companyId payrollRunId : String) (periodEnd : Date) (employeeId : String)
    (minutesWorked : Int) (employee : Employee) (assignment : PolicyAssignment)
    (version : PolicyVersion) (rule : AccrualRule) : Except Error (Option Posting) :=
  if rule.method ≠ .HOURS_WORKED then .ok none
  else do
    let tenure := completedTenureMonths employee.startDate periodEnd
    let selected ← selectedRule (eligibleRules version .HOURS_WORKED tenure)
    if selected.id ≠ rule.id then .ok none
    else do
      let amount ← payrollAmount minutesWorked rule.amount rule.unit rule.perMinutesWorked
        employee.workMinutesPerDay
      if amount = 0 then .ok none
      else .ok (some
        { companyId := companyId
          employeeId := employeeId
          policyId := assignment.policyId
          policyVersionId := version.id
          effectiveDate := periodEnd
          sourceType := .PAYROLL_ACCRUAL
          sourceId := payrollSource payrollRunId employeeId rule.id
          amount := amount
          maxBalanceMinutes := version.maxBalanceMinutes
          note := s!"{minutesWorked} minutes worked" })

/-- The body of the loop over the assignments of an employee. -/
def creditAssignment (dir : Directory) (companyId payrollRunId : String) (periodEnd : Date)
    (employeeId : String) (minutesWorked : Int) (created : Int) (assignment : PolicyAssignment) :
    Tx Int := do
  let employee ← Tx.lift (dir.employee employeeId)
  let version : Option PolicyVersion ←
    Tx.query (.versionEffectiveOn assignment.policyId periodEnd)
  match version with
  | none => return created
  | some version =>
    version.rules.foldlM (fun created rule =>
      postDecision created (payrollDecision companyId payrollRunId periodEnd employeeId
        minutesWorked employee assignment version rule)) created

/-- The body of the loop over the employees. -/
def creditEmployee (dir : Directory) (companyId payrollRunId : String) (periodEnd : Date)
    (created : Int) (entry : String × Int) : Tx Int := do
  let assignments : List PolicyAssignment ←
    Tx.query (.assignmentsCovering companyId (some entry.1) periodEnd)
  assignments.foldlM (creditAssignment dir companyId payrollRunId periodEnd entry.1 entry.2) created

/-- `minutes_by_employee`: a dictionary from employees to worked minutes. -/
abbrev MinutesByEmployee := Table String (String × Int) Prod.fst

/-- `on_payroll_processed` -/
def onPayrollProcessed (dir : Directory) (companyId payrollRunId : String) (periodEnd : Date)
    (minutesByEmployee : MinutesByEmployee) : Tx JobRun := do
  let created ← minutesByEmployee.rows.foldlM
    (creditEmployee dir companyId payrollRunId periodEnd) 0
  recordRun ⟨companyId, .PAYROLL, payrollRunId, "SUCCESS", created⟩

end AccrualService

end TimeOff
