import Mathlib.Tactic.Common

/-!
# Business values, identifiers and errors

The enumerations of the application with their stored spellings, the identifiers
the database generates, and the errors services raise.

An enumeration is an inductive type whose constructors are the members of the
source's `StrEnum`, and `value` is what the database stores for one. Identifiers
are texts of a fixed form (`Uuid`): the sources of ledger entries join them with
colons, and that none occurs in an identifier is what keeps the parts apart.
-/

namespace TimeOff

/-- Whether a policy keeps balances. -/
inductive PolicyKind
  | UNLIMITED
  | ACCRUAL
deriving DecidableEq, Repr

/-- What a rule accrues by. -/
inductive AccrualMethod
  | TIME
  | HOURS_WORKED
deriving DecidableEq, Repr

/-- How often a rule in time accrues. -/
inductive Schedule
  | DAILY
  | WEEKLY
  | SEMIMONTHLY
  | BIWEEKLY
  | MONTHLY
  | YEARLY
deriving DecidableEq, Repr

/-- When in its period a rule in time accrues. -/
inductive AccruesAt
  | START_OF_PERIOD
  | END_OF_PERIOD
deriving DecidableEq, Repr

/-- The unit of a rate. -/
inductive RateUnit
  | DAY
  | HOUR
  | MINUTE
deriving DecidableEq, Repr

/-- What the first period of an employee earns. -/
inductive NewHireProration
  | PRORATE
  | FULL
  | NONE
deriving DecidableEq, Repr

/-- What a ledger entry records. -/
inductive EntryType
  | ACCRUAL
  | FORFEITURE
  | CARRYOVER
  | EXPIRATION
  | REQUEST_DEBIT
  | REQUEST_REVERSAL
deriving DecidableEq, Repr

/-- What a ledger entry was posted for. -/
inductive SourceType
  | SCHEDULED_ACCRUAL
  | PAYROLL_ACCRUAL
  | REQUEST
  | REQUEST_CANCELLATION
  | PERIOD_ROLLOVER
deriving DecidableEq, Repr

/-- The jobs. -/
inductive JobKind
  | SCHEDULED
  | PAYROLL
  | ROLLOVER
deriving DecidableEq, Repr

/-- Where a request stands. -/
inductive RequestStatus
  | PENDING
  | APPROVED
  | DENIED
  | CANCELLED
deriving DecidableEq, Repr

def PolicyKind.value : PolicyKind → String
  | .UNLIMITED => "UNLIMITED"
  | .ACCRUAL => "ACCRUAL"

def AccrualMethod.value : AccrualMethod → String
  | .TIME => "TIME"
  | .HOURS_WORKED => "HOURS_WORKED"

def Schedule.value : Schedule → String
  | .DAILY => "DAILY"
  | .WEEKLY => "WEEKLY"
  | .SEMIMONTHLY => "SEMIMONTHLY"
  | .BIWEEKLY => "BIWEEKLY"
  | .MONTHLY => "MONTHLY"
  | .YEARLY => "YEARLY"

def AccruesAt.value : AccruesAt → String
  | .START_OF_PERIOD => "START_OF_PERIOD"
  | .END_OF_PERIOD => "END_OF_PERIOD"

def RateUnit.value : RateUnit → String
  | .DAY => "DAY"
  | .HOUR => "HOUR"
  | .MINUTE => "MINUTE"

def NewHireProration.value : NewHireProration → String
  | .PRORATE => "PRORATE"
  | .FULL => "FULL"
  | .NONE => "NONE"

/-- The statuses that block dates: pending and approved. -/
def RequestStatus.LIVE (s : RequestStatus) : Bool :=
  match s with
  | .PENDING | .APPROVED => true
  | .DENIED | .CANCELLED => false

theorem RequestStatus.live_iff {s : RequestStatus} :
    s.LIVE = true ↔ s = .PENDING ∨ s = .APPROVED := by
  cases s <;> decide

/-- A generated primary key, `str(uuid.uuid4())`: 36 hexadecimal digits and
dashes. -/
structure Uuid where
  text : String
  form : text.toList.length = 36 ∧
    text.toList.all (fun c => c = '-' || c.isDigit || 'a' ≤ c && c ≤ 'f') = true
deriving DecidableEq, Repr

namespace Uuid

theorem text_injective {a b : Uuid} (h : a.text = b.text) : a = b := by
  cases a
  cases b
  cases h
  rfl

/-- A generated key contains no separator. -/
theorem colon_notMem (a : Uuid) : ':' ∉ a.text.toList := by
  intro h
  have hform := List.all_eq_true.mp a.form.2 ':' h
  revert hform
  decide

end Uuid

/-- What a service raises, with its message. -/
inductive Error
  /-- `domain.requests.RequestError` -/
  | request (message : String)
  /-- `domain.rules.PolicyRuleError` -/
  | policyRule (message : String)
  /-- `policy_service.PolicyError` -/
  | policy (message : String)
  /-- `assignment_service.AssignmentError` -/
  | assignment (message : String)
  /-- `group_service.GroupError` -/
  | group (message : String)
  /-- `LookupError` of an integration -/
  | lookup (message : String)
  /-- `ValueError` of the language -/
  | value (message : String)
  /-- a violated constraint of the database -/
  | integrity
  /-- `scalar_one_or_none` on several rows -/
  | multipleResults
  /-- an attribute of `None`, or `None` where a number is needed -/
  | type
  /-- a signal of decimal arithmetic -/
  | arithmetic
  /-- `HTTPException` -/
  | http (status : Nat) (detail : String)
deriving DecidableEq, Repr

end TimeOff
