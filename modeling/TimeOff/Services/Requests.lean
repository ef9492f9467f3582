import TimeOff.Services.Ledger

/-!
# Request service

Submitting, deciding and cancelling requests, statement by statement. The
statements that write a snapshot's hold or a request row stand where the session
flushes. `decide` reads the request again under its lock; `cancel` goes on with
the row its caller loaded.

A request is charged day by day (`requestDays`), and its days are kept with it.
Each calendar year of them is a leg (`legs`), and a leg is what the ledger knows
of the request: an approval posts a debit for every leg (`debits`), a
cancellation a reversal (`reversals`), both under the request's id and the year.

The routes wrap these with what they look up first: who calls, whether the row
is of the caller's company, and which row `cancel` is handed.
-/

namespace TimeOff

open Gregorian

/-- The arguments of a preview or submission. -/
structure RequestFields where
  employeeId : String
  categoryId : Uuid
  startDate : Date
  endDate : Date
  partialMinutes : Option Int := none
deriving DecidableEq, Repr

/-- Minutes per calendar year, in order of first appearance: a dictionary. -/
abbrev MinutesByYear := Table Int (Int × Int) Prod.fst

/-- `totals[day.date.year] = totals.get(day.date.year, 0) + day.minutes` -/
def MinutesByYear.addDay (totals : MinutesByYear) (day : RequestDay) : MinutesByYear :=
  Table.modify (Table.insertNew totals (day.date.year, 0)) day.date.year
    (fun entry => (entry.1, entry.2 + day.minutes)) fun _ => rfl

/-- `_minutes_by_year` -/
def minutesByYear (days : List RequestDay) : MinutesByYear := days.foldl .addDay .empty

/-- The first charged day of a year. -/
def firstDay (days : List RequestDay) (year : Int) : Option Date :=
  ((days.filter fun day => day.date.year = year).map (·.date)).min?

/-- The part of a request that falls into one calendar year. -/
structure Leg where
  year : Int
  minutes : Int
  date : Date
deriving DecidableEq, Repr

/-- One leg per calendar year; each year has a first day. -/
def legs (days : List RequestDay) : List Leg :=
  (minutesByYear days).rows.filterMap fun entry =>
    (firstDay days entry.1).map fun date => ⟨entry.1, entry.2, date⟩

/-- The source id of a request's leg. -/
def legSource (requestId : Uuid) (year : Int) : String :=
  requestId.text ++ ":" ++ Text.decimal year

namespace TimeOffRequest

/-- The debit of a leg. -/
def debit (request : TimeOffRequest) (leg : Leg) : LedgerEntry where
  companyId := request.companyId
  employeeId := request.employeeId
  policyId := request.policyId
  policyVersionId := request.policyVersionId
  entryType := .REQUEST_DEBIT
  amountMinutes := -leg.minutes
  effectiveDate := leg.date
  sourceType := .REQUEST
  sourceId := legSource request.id leg.year
  note := request.reason

/-- And its reversal. -/
def reversal (request : TimeOffRequest) (leg : Leg) : LedgerEntry where
  companyId := request.companyId
  employeeId := request.employeeId
  policyId := request.policyId
  policyVersionId := request.policyVersionId
  entryType := .REQUEST_REVERSAL
  amountMinutes := leg.minutes
  effectiveDate := leg.date
  sourceType := .REQUEST_CANCELLATION
  sourceId := legSource request.id leg.year
  note := "Cancelled before leave started"

/-- What an approval posts. -/
def debits (request : TimeOffRequest) : List LedgerEntry := (legs request.days).map request.debit

/-- What a cancellation posts. -/
def reversals (request : TimeOffRequest) : List LedgerEntry :=
  (legs request.days).map request.reversal

end TimeOffRequest

namespace RequestService

/-- `_snapshot`. A row the session has loaded keeps its loaded values. -/
def snapshot (account : Account) (lock : Bool) (loaded : Option BalanceSnapshot) :
    Tx BalanceSnapshot := do
  let row : Option BalanceSnapshot ←
    if lock then Program.perform (Stmt.lockSnapshot account) else Tx.query (.snapshot account)
  match row with
  | some row => return loaded.getD row
  | none => do
    let balance : Int ← Tx.query (.balance account none)
    Program.perform (Stmt.insertSnapshot ⟨account, balance, 0⟩)
    return ⟨account, balance, 0⟩

/-- What a request is charged to, and what it costs. -/
structure Resolved where
  assignment : PolicyAssignment
  version : PolicyVersion
  days : List RequestDay
deriving DecidableEq, Repr

namespace Resolved

def account (r : Resolved) (employeeId : String) : Account := ⟨employeeId, r.assignment.policyId⟩

def totalMinutes (r : Resolved) : Int := (r.days.map (·.minutes)).sum

end Resolved

/-- What `preview` returns. -/
structure Preview extends Resolved where
  availableMinutes : Int
  /-- the row as the session loaded it -/
  snapshot : BalanceSnapshot

/-- The checks of `preview` that come before the balance. -/
def resolve (dir : Directory) (fields : RequestFields) : Tx Resolved := do
  let employee ← Tx.lift (dir.employee fields.employeeId)
  let found : Option PolicyAssignment ← Tx.query
    (.assignmentForCategory employee.companyId fields.employeeId fields.categoryId
      fields.startDate)
  match found.filter fun a => ¬ ∃ last ∈ a.effectiveTo, last < fields.endDate with
  | none => .raise (.request "No policy covers this employee for the full request range.")
  | some assignment =>
    let found : Option PolicyVersion ← Tx.query
      (.versionEffectiveOn assignment.policyId fields.startDate)
    match found with
    | none => .raise (.request "No policy version is effective on the request date.")
    | some version =>
      let holidays : List Date ← Tx.query
        (.holidays assignment.companyId fields.startDate fields.endDate)
      let days ← Tx.lift (requestDays fields.startDate fields.endDate fields.partialMinutes
        employee.workMinutesPerDay employee.workDays holidays)
      let overlap : Option Uuid ← Tx.query
        (.overlap fields.employeeId fields.startDate fields.endDate)
      if overlap.isSome then
        .raise (.request "This request overlaps another pending or approved request.")
      else return ⟨assignment, version, days⟩

/-- The balance check of `preview`. -/
def checkBalance (employeeId : String) (lockBalance : Bool) (r : Resolved) : Tx Preview := do
  let row ← snapshot (r.account employeeId) lockBalance none
  let available := row.balanceMinutes - row.pendingHoldMinutes
  if r.version.kind ≠ .UNLIMITED ∧ available - r.totalMinutes < r.version.floor then
    .raise (.request "The request exceeds the available balance.")
  else return { r with availableMinutes := available, snapshot := row }

/-- `preview` -/
def preview (dir : Directory) (fields : RequestFields) (lockBalance : Bool) : Tx Preview := do
  let r ← resolve dir fields
  checkBalance fields.employeeId lockBalance r

/-- The request that is stored. -/
def newRequest (id : Uuid) (actorId reason : String) (fields : RequestFields) (r : Resolved) :
    TimeOffRequest where
  id := id
  companyId := r.assignment.companyId
  employeeId := fields.employeeId
  policyId := r.assignment.policyId
  policyVersionId := r.version.id
  categoryId := fields.categoryId
  reason := reason
  status := .PENDING
  startDate := fields.startDate
  endDate := fields.endDate
  totalMinutes := r.totalMinutes
  isPartialDay := fields.partialMinutes.isSome
  createdBy := actorId
  days := r.days
  events := [⟨none, .PENDING, actorId, none⟩]

/-- The second half of `submit`: store the request and hold its minutes. -/
def store (row : TimeOffRequest) (version : PolicyVersion) (loaded : BalanceSnapshot) :
    Tx TimeOffRequest :=
  if version.kind ≠ .UNLIMITED then do
    let held ← snapshot row.account true (some loaded)
    Program.perform (Stmt.insertRequest row)
    Program.perform (Stmt.updateSnapshotHold row.account
      (held.pendingHoldMinutes + row.totalMinutes))
    return row
  else do
    Program.perform (Stmt.insertRequest row)
    return row

/-- `submit` after its plain reads. -/
def charge (id : Uuid) (actorId reason : String) (fields : RequestFields) (r : Resolved) :
    Tx TimeOffRequest := do
  let result ← checkBalance fields.employeeId true r
  store (newRequest id actorId reason fields r) result.version result.snapshot

/-- `submit`; `id` is the generated key of the new row. -/
def submit (dir : Directory) (id : Uuid) (actorId reason : String) (fields : RequestFields) :
    Tx TimeOffRequest := do
  let r ← resolve dir fields
  charge id actorId reason fields r

/-- The version a request froze. -/
def frozenVersion (request : TimeOffRequest) : Tx (Option PolicyVersion) := do
  let effective : Option PolicyVersion ← Tx.query
    (.versionEffectiveOn request.policyId request.startDate)
  if effective.map (·.id) = some request.policyVersionId then return effective
  else Tx.query (.version request.policyVersionId)

/-- What a decision writes to the request. -/
def decision (approve : Bool) (actorId : String) (note : Option String) : RequestUpdate :=
  let target := if approve then RequestStatus.APPROVED else .DENIED
  ⟨target, some actorId, ⟨some .PENDING, target, actorId, note⟩⟩

/-- An approval checks the balance and debits it. -/
def debitRequest (request : TimeOffRequest) (approve : Bool) (version : PolicyVersion)
    (row : BalanceSnapshot) : Tx Unit :=
  if approve ∧ version.kind ≠ .UNLIMITED then
    if row.balanceMinutes - row.pendingHoldMinutes < version.floor then
      .raise (.request "The balance changed and can no longer cover this request.")
    else LedgerService.postEach request.debits
  else pure ()

/-- A decision releases the hold. -/
def releaseHold (request : TimeOffRequest) (version : PolicyVersion) (row : BalanceSnapshot) :
    Tx Unit :=
  if version.kind ≠ .UNLIMITED then
    Program.perform (Stmt.updateSnapshotHold request.account
      (row.pendingHoldMinutes - request.totalMinutes))
  else pure ()

/-- `decide` once the request is locked and found pending. -/
def settle (request : TimeOffRequest) (approve : Bool) (actorId : String) (note : Option String) :
    Tx TimeOffRequest := do
  let found ← frozenVersion request
  let row ← snapshot request.account true none
  match found with
  | none => .raise .type
  | some version => do
    debitRequest request approve version row
    releaseHold request version row
    Program.perform (Stmt.updateRequest request.id (decision approve actorId note))
    return request.update (decision approve actorId note)

/-- `decide` -/
def decide (requestId : Uuid) (approve : Bool) (actorId : String) (note : Option String) :
    Tx TimeOffRequest := do
  let found : Option TimeOffRequest ← Program.perform (Stmt.lockRequest requestId)
  match found with
  | none => .raise (.request "The request no longer exists.")
  | some request =>
    if request.status ≠ .PENDING then
      .raise (.request "Only a pending request can be decided.")
    else settle request approve actorId note

/-- What a cancellation writes to the request. -/
def cancellation (previous : RequestStatus) (actorId : String) : RequestUpdate :=
  ⟨.CANCELLED, none, ⟨some previous, .CANCELLED, actorId, none⟩⟩

/-- A cancellation gives back the hold of a pending request and the debits of
an approved one. -/
def giveBack (request : TimeOffRequest) (row : BalanceSnapshot) : Tx Unit :=
  if request.status = .PENDING then
    Program.perform (Stmt.updateSnapshotHold request.account
      (row.pendingHoldMinutes - request.totalMinutes))
  else LedgerService.postEach request.reversals

/-- `cancel` of a loaded request. -/
def cancel (request : TimeOffRequest) (actorId : String) (today : Date) : Tx TimeOffRequest :=
  if ¬ request.status.LIVE then
    .raise (.request "Only a pending or approved request can be cancelled.")
  else if request.startDate ≤ today then
    .raise (.request "Leave that has started requires an admin correction.")
  else do
    let row ← snapshot request.account true none
    giveBack request row
    Program.perform (Stmt.updateRequest request.id (cancellation request.status actorId))
    return request.update (cancellation request.status actorId)

end RequestService

/-! ## Routes -/

namespace Api

/-- `require_self_or_admin` -/
def requireSelfOrAdmin (dir : Directory) (employeeId : String) (actor : Employee) :
    Except Error Unit :=
  match dir.employees.find? employeeId with
  | none => .error (.http 404 "Unknown employee")
  | some employee =>
    if employee.companyId ≠ actor.companyId then .error (.http 404 "Unknown employee")
    else if employeeId ≠ actor.id ∧ ¬ actor.isAdmin then
      .error (.http 403 "You can only access your own employee data.")
    else .ok ()

/-- `require_admin` -/
def requireAdmin (actor : Employee) : Except Error Unit :=
  if actor.isAdmin then .ok () else .error (.http 403 "This action requires an admin.")

/-- `_request` -/
def findRequest (id : Uuid) (companyId : String) : Tx TimeOffRequest := do
  let found : Option TimeOffRequest ← Tx.query (.request id companyId)
  match found with
  | some row => return row
  | none => .raise (.http 404 "Unknown request")

def submit (dir : Directory) (actor : Employee) (id : Uuid) (reason : String)
    (fields : RequestFields) : Tx TimeOffRequest := do
  let _ ← Tx.lift (requireSelfOrAdmin dir fields.employeeId actor)
  RequestService.submit dir id actor.id reason fields

/-- `approve` and `deny` -/
def decide (actor : Employee) (requestId : Uuid) (approve : Bool) (note : Option String) :
    Tx TimeOffRequest := do
  let _ ← Tx.lift (requireAdmin actor)
  let row ← findRequest requestId actor.companyId
  RequestService.decide row.id approve actor.id note

def cancel (dir : Directory) (actor : Employee) (requestId : Uuid) (today : Date) :
    Tx TimeOffRequest := do
  let row ← findRequest requestId actor.companyId
  let _ ← Tx.lift (requireSelfOrAdmin dir row.employeeId actor)
  RequestService.cancel row actor.id today

end Api

end TimeOff
