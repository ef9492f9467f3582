import TimeOff.Isolation.Operations

/-!
# The routes keep companies apart

Every route that writes runs operations for the actor's company: it names the
actor's company itself, or first looks the row it is given up among the
company's own (`change_of_call`). With the references that all calls keep, this
is **`companies_isolated`**. Routes that only read are left out, and so is
`preview`, which never commits.

`Route` has a constructor for each handler that writes, with its payload, and
`Route.run` is the handler: the checks it makes itself, then the services it
calls. An actor is looked up by the header it sends (`getActor`), and a call
that fails anywhere is rolled back (`State.serve`). The proof has one case per
route, and each is an operation of the services about which `Change` is already
known; what is left for the route is that the row it names is of the actor's
company (`requireOwn`).
-/

namespace TimeOff

open Gregorian

namespace Api

/-- The database, and the day in `demo_state` if one is set. -/
structure State where
  db : Db
  currentDate : Option Date

def State.empty : State := ⟨.empty, none⟩

/-- `clock.today` -/
def State.today (s : State) (dateToday : Date) : Date := s.currentDate.getD dateToday

/-- One operation of a route's transaction. -/
def State.perform (dir : Directory) (op : Op) (s : State) : Except Error State :=
  (op.run dir s.db).map fun db => { s with db := db }

/-- The routes that write, with their payloads and the keys they generate. -/
inductive Route
  | createCategory (id : Uuid) (name : String)
  | createPolicy (policyId versionId : Uuid) (name : String) (categoryId : Uuid)
      (fields : VersionFields) (rules : List AccrualRule) (allEmployees : Bool)
      (groupIds : List Uuid) (newId : Uuid → String → Uuid)
  | updatePolicy (policyId versionId : Uuid) (name : Option String) (fields : VersionFields)
      (rules : List AccrualRule) (allEmployees : Option Bool) (groupIds : Option (List Uuid))
      (newId : Uuid → String → Uuid)
  | assign (policyId : Uuid) (effectiveFrom : Date) (employees : List (String × Uuid))
  | endAssignment (assignmentId : Uuid) (effectiveTo : Date)
  | submit (id : Uuid) (reason : String) (fields : RequestFields)
  | approve (requestId : Uuid) (note : Option String)
  | deny (requestId : Uuid) (note : Option String)
  | cancel (requestId : Uuid)
  | addHoliday (date : Date) (name : String) (observed : Bool)
  /-- with the statutory holidays of the year -/
  | syncHolidays (statutory : List (Date × String))
  | scheduled (asOf : Date)
  | payroll (payrollRunId : String) (periodEnd : Date)
      (minutesByEmployee : AccrualService.MinutesByEmployee)
  | rollover (asOf : Date)
  | setClock (currentDate : Date)
  | runAccruals
  | runRollover
  | createGroup (id : Uuid) (name : String) (employeeIds : List String)
  | replaceGroupMembers (groupId : Uuid) (employeeIds : List String) (effectiveFrom : Date)
      (newId : Uuid → String → Uuid)
  | deleteGroup (groupId : Uuid) (newId : Uuid → String → Uuid)
  | setEmployeeGroup (employeeId : String) (groupId : Option Uuid) (effectiveFrom : Date)
      (newId : Uuid → String → Uuid)
  | setPolicyAudience (policyId : Uuid) (allEmployees : Bool) (groupIds : List Uuid)
      (effectiveFrom : Date) (newId : Uuid → String → Uuid)

/-- `get_actor` -/
def getActor (dir : Directory) (actorId : String) : Except Error Employee :=
  match dir.employees.find? actorId with
  | some actor => .ok actor
  | none => .error (.http 401 ("Unknown actor " ++ quoted actorId))

/-- A row of the actor's company, or 404. -/
def requireOwn (owner : Option String) (actor : Employee) (detail : String) : Except Error Unit :=
  if owner = some actor.companyId then .ok () else .error (.http 404 detail)

/-- What the handler of a route does. -/
def Route.run (dir : Directory) (actor : Employee) (dateToday : Date) (s : State) :
    Route → Except Error State
  | .createCategory id name => do
    requireAdmin actor
    s.perform dir (.catalog (.createCategory ⟨id, actor.companyId, name⟩))
  | .createPolicy policyId versionId name categoryId fields rules allEmployees groupIds newId => do
    requireAdmin actor
    let s ← s.perform dir (.catalog (.createPolicy actor.companyId policyId versionId name
      categoryId fields rules))
    s.perform dir (.catalog (.setPolicyAudience policyId allEmployees groupIds
      fields.effectiveFrom newId))
  | .updatePolicy policyId versionId name fields rules allEmployees groupIds newId => do
    requireAdmin actor
    requireOwn (s.db.catalog.policyCompany policyId) actor "Unknown policy"
    let s ← s.perform dir (.catalog (.updatePolicy policyId versionId name fields rules))
    match allEmployees with
    | none => return s
    | some allEmployees =>
      s.perform dir (.catalog (.setPolicyAudience policyId allEmployees (groupIds.getD [])
        fields.effectiveFrom newId))
  | .assign policyId effectiveFrom employees => do
    requireAdmin actor
    requireOwn (s.db.catalog.policyCompany policyId) actor "Unknown policy"
    s.perform dir (.catalog (.assign policyId effectiveFrom employees))
  | .endAssignment assignmentId effectiveTo => do
    requireAdmin actor
    requireOwn (ownerOf PolicyAssignment.id PolicyAssignment.companyId
      s.db.catalog.assignments.rows assignmentId) actor "Unknown assignment"
    s.perform dir (.catalog (.endAssignment assignmentId effectiveTo))
  | .submit id reason fields => s.perform dir (.submit actor id reason fields)
  | .approve requestId note => s.perform dir (.decide actor requestId true note)
  | .deny requestId note => s.perform dir (.decide actor requestId false note)
  | .cancel requestId => s.perform dir (.cancel actor requestId (s.today dateToday))
  | .addHoliday date name observed => do
    requireAdmin actor
    s.perform dir (.catalog (.addHoliday ⟨actor.companyId, date, name, observed⟩))
  | .syncHolidays statutory => do
    requireAdmin actor
    s.perform dir (.catalog (.ensureYear actor.companyId statutory))
  | .scheduled asOf => do
    requireAdmin actor
    s.perform dir (.runScheduled actor.companyId asOf)
  | .payroll payrollRunId periodEnd minutesByEmployee => do
    requireAdmin actor
    s.perform dir (.onPayrollProcessed actor.companyId payrollRunId periodEnd minutesByEmployee)
  | .rollover asOf => do
    requireAdmin actor
    s.perform dir (.rollover actor.companyId asOf)
  | .setClock currentDate => do
    requireAdmin actor
    return { s with currentDate := some currentDate }
  | .runAccruals => do
    requireAdmin actor
    s.perform dir (.runScheduled actor.companyId (s.today dateToday))
  | .runRollover => do
    requireAdmin actor
    s.perform dir (.rollover actor.companyId (s.today dateToday))
  | .createGroup id name employeeIds => do
    requireAdmin actor
    s.perform dir (.catalog (.createGroup actor.companyId id name employeeIds))
  | .replaceGroupMembers groupId employeeIds effectiveFrom newId => do
    requireAdmin actor
    requireOwn (s.db.catalog.groupCompany groupId) actor "Unknown employee group"
    s.perform dir (.catalog (.replaceMembers groupId employeeIds effectiveFrom newId))
  | .deleteGroup groupId newId => do
    requireAdmin actor
    requireOwn (s.db.catalog.groupCompany groupId) actor "Unknown employee group"
    s.perform dir (.catalog (.removeGroup groupId (s.today dateToday) newId))
  | .setEmployeeGroup employeeId groupId effectiveFrom newId => do
    requireAdmin actor
    s.perform dir (.catalog (.setEmployeeGroup actor.companyId employeeId groupId effectiveFrom
      newId))
  | .setPolicyAudience policyId allEmployees groupIds effectiveFrom newId => do
    requireAdmin actor
    requireOwn (s.db.catalog.policyCompany policyId) actor "Unknown policy"
    s.perform dir (.catalog (.setPolicyAudience policyId allEmployees groupIds effectiveFrom newId))

/-- A request to the API, and the day it comes in. -/
structure Call where
  actorId : String
  dateToday : Date
  route : Route

/-- A call that succeeds commits, and any other leaves the state as it was. -/
def State.serve (dir : Directory) (s : State) (call : Call) : Except Error State := do
  let actor ← getActor dir call.actorId
  call.route.run dir actor call.dateToday s

/-- What calls in turn lead to. -/
def State.Reachable (dir : Directory) (s : State) : Prop :=
  ∃ l, Trail (fun s call s' => s.serve dir call = .ok s') .empty l s

section routes

variable {dir : Directory} {actor : Employee} {s s' : State}

/-- What passes the check is of the actor's company. -/
theorem own_of_requireOwn {owner : Option String} {detail : String} {u : Unit}
    (h : requireOwn owner actor detail = .ok u) : owner = some actor.companyId := by
  simp only [requireOwn] at h
  split at h
  · next hown => exact hown
  · cases h

/-- An operation for the actor's company. -/
theorem change_of_perform {op : Op} (href : s.db.References dir)
    (h : s.perform dir op = .ok s') (hown : op.company s.db = some actor.companyId) :
    s.db.Change dir actor.companyId s'.db := by
  simp only [State.perform] at h
  cases hrun : op.run dir s.db with
  | error e =>
    rw [hrun] at h
    cases h
  | ok db =>
    rw [hrun] at h
    cases h
    obtain ⟨company, hcompany, hchange⟩ := change_of_step href hrun
    obtain rfl := Option.some.inj (hcompany.symm.trans hown)
    exact hchange

theorem perform_catalog {op : CatalogOp} (h : s.perform dir (.catalog op) = .ok s') :
    op.run dir s.db.catalog = .ok s'.db.catalog := by
  simp only [State.perform, Op.run] at h
  cases hrun : op.run dir s.db.catalog with
  | error e =>
    simp only [hrun] at h
    cases h
  | ok c =>
    simp only [hrun] at h
    cases h
    rfl

/-- What a route does, it does for the actor's company. -/
theorem change_of_route {dateToday : Date} {route : Route} (href : s.db.References dir)
    (h : route.run dir actor dateToday s = .ok s') : s.db.Change dir actor.companyId s'.db := by
  cases route with
  | createPolicy policyId versionId name categoryId fields rules allEmployees groupIds newId =>
    obtain ⟨_, -, h⟩ := Except.bind_eq_ok.mp h
    obtain ⟨s₁, hcreate, h⟩ := Except.bind_eq_ok.mp h
    have hcreated := change_of_perform href hcreate rfl
    -- the new policy is the actor's company's
    obtain ⟨-, hpolicy⟩ := PolicyService.create_change href.catalog (perform_catalog hcreate)
    exact hcreated.trans (change_of_perform hcreated.references h hpolicy)
  | updatePolicy policyId versionId name fields rules allEmployees groupIds newId =>
    obtain ⟨_, -, h⟩ := Except.bind_eq_ok.mp h
    obtain ⟨_, hown, h⟩ := Except.bind_eq_ok.mp h
    obtain ⟨s₁, hupdate, h⟩ := Except.bind_eq_ok.mp h
    have hown := own_of_requireOwn hown
    have hupdated := change_of_perform href hupdate hown
    cases allEmployees with
    | none =>
      cases h
      exact hupdated
    | some allEmployees =>
      -- and it stays the actor's company's
      obtain ⟨_, -, hchange⟩ := CatalogOp.change_of_run href.catalog (perform_catalog hupdate)
      exact hupdated.trans
        (change_of_perform hupdated.references h (hchange.policyCompany hown))
  | assign | endAssignment | replaceGroupMembers | deleteGroup | setPolicyAudience =>
    obtain ⟨_, -, h⟩ := Except.bind_eq_ok.mp h
    obtain ⟨_, hown, h⟩ := Except.bind_eq_ok.mp h
    exact change_of_perform href h (own_of_requireOwn hown)
  | submit | approve | deny | cancel => exact change_of_perform href h rfl
  | setClock currentDate =>
    obtain ⟨_, -, h⟩ := Except.bind_eq_ok.mp h
    cases h
    exact .refl href
  | createCategory | addHoliday | syncHolidays | scheduled | payroll | rollover | runAccruals
  | runRollover | createGroup | setEmployeeGroup =>
    obtain ⟨_, -, h⟩ := Except.bind_eq_ok.mp h
    exact change_of_perform href h rfl

/-- So a call changes the rows of its actor's company only. -/
theorem change_of_call {call : Call} (href : s.db.References dir)
    (h : s.serve dir call = .ok s') :
    ∃ actor, dir.employees.find? call.actorId = some actor ∧
      s.db.Change dir actor.companyId s'.db := by
  obtain ⟨actor, hactor, h⟩ := Except.bind_eq_ok.mp h
  refine ⟨actor, ?_, change_of_route href h⟩
  simp only [getActor] at hactor
  split at hactor
  · next hfind =>
    cases hactor
    exact hfind
  · cases hactor

end routes

/-- **Companies are isolated**: whatever calls have been served, every row refers
to rows of its own company, and a call by an actor leaves the rows of all other
companies alone. -/
theorem companies_isolated {dir : Directory} {s : State} (h : s.Reachable dir) :
    s.db.References dir ∧
    ∀ (call : Call) (actor : Employee) (s' : State),
      dir.employees.find? call.actorId = some actor → s.serve dir call = .ok s' →
      s.db.KeepsOthers actor.companyId s'.db := by
  obtain ⟨l, hl⟩ := h
  have href : s.db.References dir :=
    hl.invariant (I := fun s => s.db.References dir) .empty fun href hserve => by
      obtain ⟨_, -, hchange⟩ := change_of_call href hserve
      exact hchange.references
  refine ⟨href, fun call actor s' hactor hserve => ?_⟩
  obtain ⟨actor', hactor', hchange⟩ := change_of_call href hserve
  obtain rfl : actor = actor' := Option.some.inj (hactor.symm.trans hactor')
  exact hchange.others

end Api

namespace Demo

/-- Two companies, each with an administrator and an employee. -/
def twoCompanies : Directory where
  companies := ⟨[⟨"cmp_warp_demo", ofYmd 2026 1 5⟩, ⟨"cmp_other", ofYmd 2026 1 5⟩], by decide⟩
  employees := ⟨
    [ admin,
      { admin with id := "emp_ada", name := "Ada Lovelace", isAdmin := false },
      { admin with id := "other_admin", companyId := "cmp_other", name := "Other admin" },
      { admin with
        id := "other_employee", companyId := "cmp_other", name := "Other employee"
        isAdmin := false } ],
    by decide⟩

/-- Ten days at the start of every year, for everyone. -/
def yearlyPolicy (policyId versionId ruleId categoryId assignmentId : Uuid) : Api.Route :=
  .createPolicy policyId versionId "Core vacation" categoryId
    { effectiveFrom := ofYmd 2026 1 1, kind := .ACCRUAL }
    [{ method := .TIME, amount := 10, unit := .DAY, frequency := some .YEARLY
       accruesAt := some .START_OF_PERIOD, id := ruleId }] true [] fun _ _ => assignmentId

def callBy (actorId : String) (route : Api.Route) : Api.Call := ⟨actorId, ofYmd 2026 1 1, route⟩

/-- Both companies open a policy, and the other one accrues. -/
def bothOpen : List Api.Call :=
  [ callBy "adm_lindsey" (.createCategory categoryId "Vacation"),
    callBy "adm_lindsey" (yearlyPolicy policyId versionId ruleId categoryId assignmentId),
    callBy "other_admin" (.createCategory otherCategoryId "Other vacation"),
    callBy "other_admin" (yearlyPolicy otherPolicyId nextVersionId nextRuleId otherCategoryId
      nextAssignmentId),
    callBy "other_admin" (.scheduled (ofYmd 2026 1 1)) ]

end Demo

/-- The accruals of one company leave the credit of the other alone. -/
theorem accruals_isolated :
    ∃ s s' : Api.State, s.Reachable Demo.twoCompanies ∧
      (∃ e ∈ s.db.ledger.rows, e.companyId = "cmp_other") ∧
      s.serve Demo.twoCompanies (Demo.callBy "adm_lindsey" .runAccruals) = .ok s' ∧
      (∃ e ∈ s'.db.ledger.rows, e.companyId = "cmp_warp_demo") ∧
      s.db.KeepsOthers "cmp_warp_demo" s'.db := by
  have hcalls : (do
      let s ← Demo.bothOpen.foldlM (fun s call => s.serve Demo.twoCompanies call) Api.State.empty
      let s' ← s.serve Demo.twoCompanies (Demo.callBy "adm_lindsey" .runAccruals)
      return (s, s') : Except Error (Api.State × Api.State)).passes (fun r =>
        (∃ e ∈ r.1.db.ledger.rows, e.companyId = "cmp_other") ∧
          ∃ e ∈ r.2.db.ledger.rows, e.companyId = "cmp_warp_demo") = true := by
    decide +kernel
  obtain ⟨⟨s, s'⟩, hcalls, htest⟩ := Except.ok_of_passes hcalls
  obtain ⟨hother, hown⟩ := of_decide_eq_true htest
  obtain ⟨_, hrun, hcalls⟩ := Except.bind_eq_ok.mp hcalls
  obtain ⟨_, hserve, hcalls⟩ := Except.bind_eq_ok.mp hcalls
  cases hcalls
  have hreachable : s.Reachable Demo.twoCompanies := Trail.of_foldlM hrun
  exact ⟨s, s', hreachable, hother, hserve, hown,
    (Api.companies_isolated hreachable).2 _ Demo.admin s' rfl hserve⟩

end TimeOff
