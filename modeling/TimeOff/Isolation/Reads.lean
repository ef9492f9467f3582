import TimeOff.Books.Preview
import TimeOff.Isolation.Roles
import TimeOff.Requests.Holidays
import TimeOff.Services.Balances

/-!
# The routes that read

What each of them answers, and to whom: a list is of the actor's company, and
what is stored about an employee is for the employee and the admins of their
company. A preview reads too, for its transaction is never committed.

`Read` has one constructor for each such route, with the arguments it takes, and
`Read.run` one branch with the checks and lookups in their order and the texts
of the errors. The response models are built with all the columns that the model
of a row has; where the code reads a related row without a guard (the category
of a policy, its latest version), a missing row is an error here too (`needed`)
and not an answer.
-/

namespace TimeOff

open Gregorian

namespace Api

/-! ## What is answered -/

/-- The response models of the routes. -/
structure AssignmentOut where
  id : Uuid
  employeeId : String
  employeeName : String
  policyId : Uuid
  policyName : String
  categoryId : Uuid
  effectiveFrom : Date
  effectiveTo : Option Date
deriving DecidableEq, Repr

structure GroupMemberOut where
  employeeId : String
  employeeName : String
deriving DecidableEq, Repr

structure EmployeeGroupOut where
  id : Uuid
  name : String
  members : List GroupMemberOut
deriving DecidableEq, Repr

structure PolicyOut where
  id : Uuid
  name : String
  categoryId : Uuid
  categoryName : String
  currentVersion : PolicyVersion
  versionCount : Nat
  allEmployees : Bool
  groupIds : List Uuid
  groupNames : List String
deriving DecidableEq, Repr

structure TimeOffRequestOut where
  id : Uuid
  employeeId : String
  employeeName : String
  categoryId : Uuid
  policyId : Uuid
  reason : String
  status : RequestStatus
  startDate : Date
  endDate : Date
  totalMinutes : Int
  isPartialDay : Bool
  decidedBy : Option String
  days : List RequestDay
  events : List RequestEvent
deriving DecidableEq, Repr

/-- A related row, used without a guard. -/
def needed {ρ : Type} : Option ρ → Except Error ρ
  | some r => .ok r
  | none => .error .type

/-- `assignments._out` -/
def assignmentOut (dir : Directory) (c : Catalog) (row : PolicyAssignment) :
    Except Error AssignmentOut := do
  let employee ← dir.employee row.employeeId
  let policy ← needed (c.policy row.policyId)
  return { id := row.id
           employeeId := row.employeeId
           employeeName := employee.name
           policyId := row.policyId
           policyName := policy.name
           categoryId := row.categoryId
           effectiveFrom := row.effectiveFrom
           effectiveTo := row.effectiveTo }

/-- `_group_out`: the members by name. -/
def groupOut (dir : Directory) (c : Catalog) (group : EmployeeGroup) :
    Except Error EmployeeGroupOut := do
  let members ← (c.members.rows.filter fun m => m.groupId = group.id).mapM fun m =>
    dir.employee m.employeeId
  return ⟨group.id, group.name,
    (members.insertionSort fun e f => e.name ≤ f.name).map fun e => ⟨e.id, e.name⟩⟩

/-- `policy.group_targets` -/
def groupTargets (c : Catalog) (policyId : Uuid) : List PolicyGroupTarget :=
  c.targets.rows.filter fun t => t.policyId = policyId

/-- `PolicyOut.of` -/
def policyOut (c : Catalog) (policy : Policy) : Except Error PolicyOut := do
  let category ← needed (c.categories.rows.find? fun r => r.id = policy.categoryId)
  let current ← needed (c.latestVersion policy.id)
  let groups ← (groupTargets c policy.id).mapM fun t =>
    needed (c.groups.rows.find? fun g => g.id = t.groupId)
  return { id := policy.id
           name := policy.name
           categoryId := policy.categoryId
           categoryName := category.name
           currentVersion := current
           versionCount := (c.versionsOf policy.id).length
           allEmployees := policy.allEmployees
           groupIds := (groupTargets c policy.id).map (·.groupId)
           groupNames := groups.map (·.name) }

/-- `requests._out` -/
def requestOut (dir : Directory) (r : TimeOffRequest) : Except Error TimeOffRequestOut := do
  let employee ← dir.employee r.employeeId
  return { id := r.id
           employeeId := r.employeeId
           employeeName := employee.name
           categoryId := r.categoryId
           policyId := r.policyId
           reason := r.reason
           status := r.status
           startDate := r.startDate
           endDate := r.endDate
           totalMinutes := r.totalMinutes
           isPartialDay := r.isPartialDay
           decidedBy := r.decidedBy
           days := r.days
           events := r.events }

/-! ## The routes

The routes that only read, with the checks of `deps` in front of them. -/

/-- A call of a route that reads. -/
inductive Read
  | listEmployees
  | getEmployee (employeeId : String)
  | categories
  | policies
  | versions (policyId : Uuid)
  | listAssignments (policyId : Uuid)
  | employeeAssignments (employeeId : String)
  | listGroups
  | balances (employeeId : String) (onDate : Date)
  | ledger (employeeId : String) (policyId : Option Uuid)
  | listRequests (employeeId : Option String) (status : Option RequestStatus)
  | preview (fields : RequestFields)
  | listHolidays (year : Int)
  | jobRuns (limit : Int)

/-- What it answers. -/
inductive Answer
  | employees (rows : List Employee)
  | employee (row : Employee)
  | categories (rows : List TimeOffCategory)
  | policies (rows : List PolicyOut)
  | versions (rows : List PolicyVersion)
  | assignments (rows : List AssignmentOut)
  | groups (rows : List EmployeeGroupOut)
  | balances (rows : List BalanceService.BalanceRow)
  | ledger (rows : List LedgerEntry)
  | requests (rows : List TimeOffRequestOut)
  | preview (row : PreviewOut)
  | holidays (rows : List Holiday)
  | jobRuns (rows : List JobRun)

/-- `assignments_for_employee` -/
def assignmentsForEmployee (c : Catalog) (companyId employeeId : String) :
    List PolicyAssignment :=
  (c.assignments.rows.filter fun a => a.companyId = companyId ∧ a.employeeId = employeeId
    ).insertionSort fun a b => a.effectiveFrom ≤ b.effectiveFrom

/-- Whose requests are listed: those asked for, or the actor's own; an admin may
list all. -/
def requestScope (dir : Directory) (actor : Employee) (employeeId : Option String) :
    Except Error (Option String) :=
  match employeeId.filter (· ≠ "") with
  | some employeeId => do
    requireSelfOrAdmin dir employeeId actor
    return some employeeId
  | none => if actor.isAdmin then .ok none else .ok (some actor.id)

/-- The routes, one branch for each. -/
def Read.run (dir : Directory) (actor : Employee) (db : Db) : Read → Except Error Answer
  | .listEmployees => .ok (.employees (dir.listForCompany actor.companyId))
  | .getEmployee employeeId =>
    match dir.employees.find? employeeId with
    | none => .error (.http 404 "Unknown employee")
    | some employee =>
      if employee.companyId ≠ actor.companyId then .error (.http 404 "Unknown employee")
      else .ok (.employee employee)
  | .categories => .ok (.categories (db.catalog.categoriesByName actor.companyId))
  | .policies => do
    let rows := (db.catalog.policies.rows.filter fun p => p.companyId = actor.companyId
      ).insertionSort fun p q => p.name ≤ q.name
    return .policies (← rows.mapM (policyOut db.catalog))
  | .versions policyId => do
    requireOwn (db.catalog.policyCompany policyId) actor "Unknown policy"
    return .versions (db.catalog.versionsOf policyId).reverse
  | .listAssignments policyId => do
    requireAdmin actor
    requireOwn (db.catalog.policyCompany policyId) actor "Unknown policy"
    let rows := (db.catalog.assignments.rows.filter fun a =>
      a.companyId = actor.companyId ∧ a.policyId = policyId
      ).insertionSort fun a b => a.effectiveFrom ≤ b.effectiveFrom
    return .assignments (← rows.mapM (assignmentOut dir db.catalog))
  | .employeeAssignments employeeId => do
    requireSelfOrAdmin dir employeeId actor
    return .assignments (← (assignmentsForEmployee db.catalog actor.companyId employeeId).mapM
      (assignmentOut dir db.catalog))
  | .listGroups => do
    requireAdmin actor
    let rows := (db.catalog.groups.rows.filter fun g => g.companyId = actor.companyId
      ).insertionSort fun g h => g.name ≤ h.name
    return .groups (← rows.mapM (groupOut dir db.catalog))
  | .balances employeeId onDate => do
    requireSelfOrAdmin dir employeeId actor
    return .balances (← BalanceService.listBalances dir db actor.companyId employeeId onDate)
  | .ledger employeeId policyId => do
    requireSelfOrAdmin dir employeeId actor
    return .ledger ((db.ledger.rows.filter fun e => e.companyId = actor.companyId ∧
      e.employeeId = employeeId ∧ ∀ id ∈ policyId, e.policyId = id
      ).insertionSort fun e f => e.effectiveDate ≤ f.effectiveDate)
  | .listRequests employeeId status => do
    let employeeId ← requestScope dir actor employeeId
    let rows := (db.requests.rows.filter fun r => r.companyId = actor.companyId ∧
      (∀ id ∈ employeeId, r.employeeId = id) ∧ ∀ s ∈ status, r.status = s).reverse
    return .requests (← rows.mapM (requestOut dir))
  | .preview fields => (Tx.run (Api.preview dir actor fields) db).map fun result =>
      .preview result.1
  | .listHolidays year =>
    if 1 ≤ year ∧ year ≤ 9999 then
      .ok (.holidays (HolidayService.listForYear db.catalog actor.companyId year))
    else .error (.value s!"year {year} is out of range")
  | .jobRuns limit => do
    requireAdmin actor
    if 1 ≤ limit ∧ limit ≤ 200 then
      return .jobRuns ((db.jobRuns.filter fun run => run.companyId = actor.companyId
        ).reverse.take limit.toNat)
    else .error (.http 422 "Unprocessable Entity")

/-- A read, by whoever sends it. -/
def State.read (dir : Directory) (s : State) (readerId : String) (read : Read) :
    Except Error Answer := do
  let actor ← getActor dir readerId
  read.run dir actor s.db

end Api

end TimeOff
