import TimeOff.Lib.Refinement
import TimeOff.Requests.Lifecycle

/-!
# The application on plain books

What the application is for, without its cache: the `Books` hold the catalog,
the ledger, the requests and the minutes held on each account, and no snapshot
rows. A balance is the sum of the ledger every time it is asked for. Every
operation is one function on books, with its checks in order.

This is the abstract model of the services, written down for its own sake and
not translated from them: the checks of an operation are in one place, errors
are results, and nothing is locked or created lazily. `Books.Refinement` proves
that the operations on the database refine it.
-/

namespace TimeOff

open Gregorian

/-- What an installation has to remember. -/
@[ext] structure Books where
  catalog : Catalog
  ledger : Ledger
  /-- the minutes held on an account -/
  hold : Account → Int
  requests : Table Uuid TimeOffRequest TimeOffRequest.id
  jobRuns : List JobRun

/-- The books that a database keeps. -/
def Db.books (db : Db) : Books where
  catalog := db.catalog
  ledger := db.ledger
  hold := db.hold
  requests := db.requests
  jobRuns := db.jobRuns

namespace Ledger

/-- A credit, and what its cap takes back. -/
def accrue (ledger : Ledger) (p : Posting) : Ledger :=
  Table.insertAll ledger
    (p.credit :: (p.loss (ledger.balance p.account (some p.effectiveDate))).toList)

/-- An account is closed under the version in force. -/
def close (c : Catalog) (companyId : String) (periodEnd : Date) (ledger : Ledger)
    (a : PolicyAssignment) : Ledger :=
  match c.versionEffectiveOn a.policyId periodEnd with
  | none => ledger
  | some version =>
    if version.kind = .UNLIMITED then ledger
    else Table.insertAll ledger (RolloverService.closingEntries companyId a version periodEnd
      (ledger.balance ⟨a.employeeId, a.policyId⟩ (some periodEnd)))

end Ledger

namespace Books

/-- The minutes of an account that no pending request holds. -/
def available (b : Books) (a : Account) : Int := b.ledger.balance a none - b.hold a

/-- Hold more minutes on an account, or fewer. -/
def addHold (b : Books) (a : Account) (minutes : Int) : Books :=
  { b with hold := Function.update b.hold a (b.hold a + minutes) }

/-- Enter entries, each source once. -/
def post (b : Books) (es : List LedgerEntry) : Books :=
  { b with ledger := Table.insertAll b.ledger es }

/-- An update keeps the id. -/
theorem id_update (u : RequestUpdate) (r : TimeOffRequest) :
    (TimeOffRequest.update u r).id = r.id := rfl

/-- Write a decision or a cancellation into the row of a request. -/
def update (b : Books) (id : Uuid) (u : RequestUpdate) : Books :=
  { b with requests := b.requests.modify id (TimeOffRequest.update u) (id_update u) }

/-- The floor under which a request was made. -/
def floorOf (b : Books) (r : TimeOffRequest) : Int :=
  ((b.catalog.version r.policyVersionId).map fun v => v.floor).getD 0

/-! ## Requests

The same checks as in the services, in one place each. A balance is summed up
from the ledger whenever one is needed, and holds are there for every account.
-/

/-- What a request is charged to and what it costs, if it can be made. -/
def resolve (dir : Directory) (fields : RequestFields) (b : Books) :
    Except Error RequestService.Resolved := do
  let employee ← dir.employee fields.employeeId
  let found ← b.catalog.assignmentForCategory employee.companyId fields.employeeId
    fields.categoryId fields.startDate
  match found.filter fun a => ¬ ∃ last ∈ a.effectiveTo, last < fields.endDate with
  | none => .error (.request "No policy covers this employee for the full request range.")
  | some assignment =>
    match b.catalog.versionEffectiveOn assignment.policyId fields.startDate with
    | none => .error (.request "No policy version is effective on the request date.")
    | some version => do
      let days ← requestDays fields.startDate fields.endDate fields.partialMinutes
        employee.workMinutesPerDay employee.workDays
        (b.catalog.holidayDates assignment.companyId fields.startDate fields.endDate)
      if ∃ r ∈ b.requests.rows, r.employeeId = fields.employeeId ∧ r.status.LIVE ∧
          r.Overlaps fields.startDate fields.endDate then
        .error (.request "This request overlaps another pending or approved request.")
      else .ok ⟨assignment, version, days⟩

/-- A request fits if its policy keeps no balance, or the floor stays. -/
def fits (b : Books) (employeeId : String) (r : RequestService.Resolved) : Except Error Unit :=
  if r.version.kind ≠ .UNLIMITED ∧
      b.available (r.account employeeId) - r.totalMinutes < r.version.floor then
    .error (.request "The request exceeds the available balance.")
  else .ok ()

/-- Ask for time off. -/
def submit (dir : Directory) (actor : Employee) (id : Uuid) (reason : String)
    (fields : RequestFields) (b : Books) : Except Error Books := do
  let _ ← Api.requireSelfOrAdmin dir fields.employeeId actor
  let r ← b.resolve dir fields
  let _ ← b.fits fields.employeeId r
  let row := RequestService.newRequest id actor.id reason fields r
  if b.requests.Has id then .error .integrity
  else
    let stored := { b with requests := b.requests.insertNew row }
    .ok (if r.version.kind ≠ .UNLIMITED then stored.addHold row.account row.totalMinutes
      else stored)

/-- A request of the company, or 404. -/
def findRequest (b : Books) (id : Uuid) (companyId : String) : Except Error TimeOffRequest :=
  match (b.requests.find? id).filter fun r => r.companyId = companyId with
  | some r => .ok r
  | none => .error (.http 404 "Unknown request")

/-- A decision settles a request that keeps a balance: an approval debits it,
and either way the hold is released. -/
def settle (b : Books) (r : TimeOffRequest) (approve : Bool) : Books :=
  if b.catalog.Keeps r then
    (if approve then b.post r.debits else b).addHold r.account (-r.totalMinutes)
  else b

/-- Approve or deny a request. -/
def decide (actor : Employee) (requestId : Uuid) (approve : Bool) (note : Option String)
    (b : Books) : Except Error Books := do
  let _ ← Api.requireAdmin actor
  let r ← b.findRequest requestId actor.companyId
  if r.status ≠ .PENDING then .error (.request "Only a pending request can be decided.")
  else if approve ∧ b.catalog.Keeps r ∧ b.available r.account < b.floorOf r then
    .error (.request "The balance changed and can no longer cover this request.")
  else
    .ok ((b.settle r approve).update requestId (RequestService.decision approve actor.id note))

/-- A cancellation releases the hold of a pending request and reverses the
debits of an approved one. -/
def giveBack (b : Books) (r : TimeOffRequest) : Books :=
  if r.status = .PENDING then b.addHold r.account (-r.totalMinutes) else b.post r.reversals

/-- Take a request back. -/
def cancel (dir : Directory) (actor : Employee) (requestId : Uuid) (today : Date) (b : Books) :
    Except Error Books := do
  let r ← b.findRequest requestId actor.companyId
  let _ ← Api.requireSelfOrAdmin dir r.employeeId actor
  if ¬ r.status.LIVE then
    .error (.request "Only a pending or approved request can be cancelled.")
  else if r.startDate ≤ today then
    .error (.request "Leave that has started requires an admin correction.")
  else
    .ok ((b.giveBack r).update requestId (RequestService.cancellation r.status actor.id))

/-! ## Jobs

The jobs have the plans of the services; what they post goes into the ledger,
and no snapshot is written. -/

/-- A job writes its entries and records how many of them are new. -/
def runJob (b : Books) (companyId : String) (kind : JobKind) (sourceId : String)
    (ledger : Ledger) : Books :=
  { b with
    ledger := ledger
    jobRuns := b.jobRuns ++
      [⟨companyId, kind, sourceId, "SUCCESS", ledger.rows.length - b.ledger.rows.length⟩] }

/-- The scheduled job. -/
def runScheduled (dir : Directory) (companyId : String) (asOf : Date) (b : Books) :
    Except Error Books := do
  let ps ← AccrualService.scheduledPlan b.catalog dir companyId asOf
  return b.runJob companyId .SCHEDULED (isoformat asOf) (ps.foldl Ledger.accrue b.ledger)

/-- A delivery of payroll. -/
def onPayrollProcessed (dir : Directory) (companyId payrollRunId : String) (periodEnd : Date)
    (minutesByEmployee : AccrualService.MinutesByEmployee) (b : Books) : Except Error Books := do
  let ps ← AccrualService.payrollPlan b.catalog dir companyId payrollRunId periodEnd
    minutesByEmployee
  return b.runJob companyId .PAYROLL payrollRunId (ps.foldl Ledger.accrue b.ledger)

/-- The closing of a year. -/
def rollover (companyId : String) (asOf : Date) (b : Books) : Except Error Books :=
  let periodEnd := RolloverService.closingDay asOf
  .ok (b.runJob companyId .ROLLOVER (isoformat periodEnd)
    ((b.catalog.assignmentsCovering companyId none periodEnd).foldl
      (Ledger.close b.catalog companyId periodEnd) b.ledger))

/-! ## Operations -/

/-- An operation on the books. -/
def run (dir : Directory) (op : Op) (b : Books) : Except Error Books :=
  match op with
  | .catalog op => (op.run dir b.catalog).map fun c => { b with catalog := c }
  | .submit actor id reason fields => b.submit dir actor id reason fields
  | .decide actor requestId approve note => b.decide actor requestId approve note
  | .cancel actor requestId today => b.cancel dir actor requestId today
  | .runScheduled companyId asOf => b.runScheduled dir companyId asOf
  | .onPayrollProcessed companyId payrollRunId periodEnd minutesByEmployee =>
    b.onPayrollProcessed dir companyId payrollRunId periodEnd minutesByEmployee
  | .rollover companyId asOf => b.rollover companyId asOf

end Books

end TimeOff
