import TimeOff.Lib.Refinement
import TimeOff.Services.AccrualPlan
import TimeOff.Services.Audiences
import TimeOff.Services.RequestEffects
import TimeOff.Services.Rollover

/-!
# The application as a state machine

One operation at a time, each run alone to its commit: `Op.run` is the step and
`Reachable` what any sequence of steps leads to from the empty database. A
failed operation leaves no state behind, so it is no step. `Effect` is the
inversion of a step: everything a successful operation can have been.

The operations are what the routes and the two integrations can start: edits of
the catalog, the three request operations, the scheduled job, a delivery of
payroll and the rollover. They get from outside what the program gets from
outside: generated keys, the current day, the actor, the statutory holidays.

Invariants are proved in one way throughout. `effect_of_step` turns a step into
an `Effect`, whose cases say in terms of functions on databases what the
operation did; an invariant is shown for each case, and `Run` or `Op.tried`
carry it over a sequence of operations. Statements quantify over runs (`Run`),
in which every operation succeeds, where the condition of a result is about each
step; and over operations tried in turn (`Op.tried`), where a refused operation
leaves the state as it was.

The steps go on where the running system would stop: a date beyond 9999-12-31
and an amount beyond 32 bits make the program fail, and the operations here do
not (see `Models`). So a result about a run speaks of a run of the program as
long as its dates and amounts stay in these bounds.
-/

namespace TimeOff

open Gregorian

/-- Operations on the catalog. -/
inductive CatalogOp
  | createCategory (category : TimeOffCategory)
  | createPolicy (companyId : String) (policyId versionId : Uuid) (name : String)
      (categoryId : Uuid) (fields : VersionFields) (rules : List AccrualRule)
  | updatePolicy (policyId versionId : Uuid) (name : Option String) (fields : VersionFields)
      (rules : List AccrualRule)
  | assign (policyId : Uuid) (effectiveFrom : Date) (employees : List (String × Uuid))
  | endAssignment (assignmentId : Uuid) (effectiveTo : Date)
  | createGroup (companyId : String) (id : Uuid) (name : String) (employeeIds : List String)
  | setPolicyAudience (policyId : Uuid) (allEmployees : Bool) (groupIds : List Uuid)
      (effectiveFrom : Date) (newId : Uuid → String → Uuid)
  | replaceMembers (groupId : Uuid) (employeeIds : List String) (effectiveFrom : Date)
      (newId : Uuid → String → Uuid)
  | setEmployeeGroup (companyId employeeId : String) (groupId : Option Uuid) (effectiveFrom : Date)
      (newId : Uuid → String → Uuid)
  | removeGroup (groupId : Uuid) (effectiveFrom : Date) (newId : Uuid → String → Uuid)
  | addHoliday (holiday : Holiday)
  | ensureYear (companyId : String) (statutory : List (Date × String))

/-- A row by its id, or 404. -/
def findOr404 {ρ : Type} (rows : List ρ) (id : ρ → Uuid) (wanted : Uuid) (detail : String) :
    Except Error ρ :=
  match rows.find? fun r => id r = wanted with
  | some r => .ok r
  | none => .error (.http 404 detail)

/-- A row that is found is stored. -/
theorem mem_of_findOr404 {ρ : Type} {rows : List ρ} {id : ρ → Uuid} {wanted : Uuid}
    {detail : String} {r : ρ} (h : findOr404 rows id wanted detail = .ok r) : r ∈ rows := by
  simp only [findOr404] at h
  split at h
  · next hfind =>
    cases h
    exact List.mem_of_find?_eq_some hfind
  · cases h

/-- And has the id that was asked for. -/
theorem id_of_findOr404 {ρ : Type} {rows : List ρ} {id : ρ → Uuid} {wanted : Uuid}
    {detail : String} {r : ρ} (h : findOr404 rows id wanted detail = .ok r) : id r = wanted := by
  simp only [findOr404] at h
  split at h
  · next hfind =>
    cases h
    simpa using List.find?_some hfind
  · cases h

/-- What an operation on the catalog does, with the lookups that its route makes
first. -/
def CatalogOp.run (dir : Directory) (c : Catalog) : CatalogOp → Except Error Catalog
  | .createCategory category => do
    let categories ← constrained (c.categories.rows ++ [category])
    return { c with categories := categories }
  | .createPolicy companyId policyId versionId name categoryId fields rules =>
    PolicyService.create c companyId policyId versionId name categoryId fields rules
  | .updatePolicy policyId versionId name fields rules => do
    let policy ← findOr404 c.policies.rows (·.id) policyId "Unknown policy"
    PolicyService.update c policy versionId name fields rules
  | .assign policyId effectiveFrom employees => do
    let policy ← findOr404 c.policies.rows (·.id) policyId "Unknown policy"
    AssignmentService.assign dir policy effectiveFrom employees c
  | .endAssignment assignmentId effectiveTo => do
    let assignment ← findOr404 c.assignments.rows (·.id) assignmentId "Unknown assignment"
    AssignmentService.endAssignment c assignment effectiveTo
  | .createGroup companyId id name employeeIds =>
    GroupService.create c dir companyId id name employeeIds
  | .setPolicyAudience policyId allEmployees groupIds effectiveFrom newId => do
    let policy ← findOr404 c.policies.rows (·.id) policyId "Unknown policy"
    GroupService.setPolicyAudience c dir policy allEmployees groupIds effectiveFrom newId
  | .replaceMembers groupId employeeIds effectiveFrom newId => do
    let group ← findOr404 c.groups.rows (·.id) groupId "Unknown employee group"
    GroupService.replaceMembers c dir group employeeIds effectiveFrom newId
  | .setEmployeeGroup companyId employeeId groupId effectiveFrom newId =>
    GroupService.setEmployeeGroup c dir companyId employeeId groupId effectiveFrom newId
  | .removeGroup groupId effectiveFrom newId => do
    let group ← findOr404 c.groups.rows (·.id) groupId "Unknown employee group"
    GroupService.remove c dir group effectiveFrom newId
  | .addHoliday holiday => HolidayService.addHoliday c holiday
  | .ensureYear companyId statutory => HolidayService.ensureYear c companyId statutory

/-- What can be done to the database. -/
inductive Op
  | catalog (op : CatalogOp)
  | submit (actor : Employee) (id : Uuid) (reason : String) (fields : RequestFields)
  | decide (actor : Employee) (requestId : Uuid) (approve : Bool) (note : Option String)
  | cancel (actor : Employee) (requestId : Uuid) (today : Date)
  | runScheduled (companyId : String) (asOf : Date)
  | onPayrollProcessed (companyId payrollRunId : String) (periodEnd : Date)
      (minutesByEmployee : AccrualService.MinutesByEmployee)
  | rollover (companyId : String) (asOf : Date)

/-- An operation, run alone: the state it commits, or the error it fails with. -/
def Op.run (dir : Directory) (op : Op) (db : Db) : Except Error Db :=
  match op with
  | .catalog op => (op.run dir db.catalog).map fun c => { db with catalog := c }
  | .submit actor id reason fields =>
    (Tx.run (Api.submit dir actor id reason fields) db).map Prod.snd
  | .decide actor requestId approve note =>
    (Tx.run (Api.decide actor requestId approve note) db).map Prod.snd
  | .cancel actor requestId today =>
    (Tx.run (Api.cancel dir actor requestId today) db).map Prod.snd
  | .runScheduled companyId asOf =>
    (Tx.run (AccrualService.runScheduled dir companyId asOf) db).map Prod.snd
  | .onPayrollProcessed companyId payrollRunId periodEnd minutesByEmployee =>
    (Tx.run (AccrualService.onPayrollProcessed dir companyId payrollRunId periodEnd
      minutesByEmployee) db).map Prod.snd
  | .rollover companyId asOf => (Tx.run (RolloverService.run companyId asOf) db).map Prod.snd

/-- One operation commits. -/
def Step (dir : Directory) (db : Db) (op : Op) (db' : Db) : Prop := op.run dir db = .ok db'

/-- Operations in turn, all of them successful. -/
abbrev Run (dir : Directory) := Trail (Step dir)

/-- What sequences of operations lead to. -/
def Reachable (dir : Directory) (db : Db) : Prop := ∃ l, Run dir .empty l db

/-- Reachable states lead to reachable states. -/
theorem Reachable.run {dir : Directory} {db db' : Db} {l : List (Db × Op × Db)}
    (h : Reachable dir db) (hl : Run dir db l db') : Reachable dir db' := by
  obtain ⟨l₀, h⟩ := h
  exact ⟨_, h.append hl⟩

theorem Reachable.step {dir : Directory} {db db' : Db} {op : Op} (h : Reachable dir db)
    (hstep : Step dir db op db') : Reachable dir db' :=
  h.run (Trail.nil.snoc hstep)

/-- The state after an operation was tried: rejected, it leaves nothing
behind. -/
def Op.tried (dir : Directory) (db : Db) (op : Op) : Db :=
  match op.run dir db with
  | .ok db' => db'
  | .error _ => db

/-- Trying an operation is the attempt of the library. -/
theorem tried_eq_attempt (dir : Directory) : Op.tried dir = attempt (Op.run dir) := by
  funext db op
  simp only [Op.tried, attempt]
  cases op.run dir db <;> rfl

/-- Operations tried in turn, accepted or rejected, lead to a reachable state. -/
theorem reachable_tried {dir : Directory} {ops : List Op} {db : Db} (h : Reachable dir db) :
    Reachable dir (ops.foldl (Op.tried dir) db) := by
  induction ops generalizing db with
  | nil => exact h
  | cons op ops ih =>
    refine ih ?_
    unfold Op.tried
    split
    · next hrun => exact h.step hrun
    · exact h

/-- What every step does to a state, operations tried in turn do. -/
theorem rel_tried {dir : Directory} {R : Db → Db → Prop} (hrefl : ∀ db, R db db)
    (htrans : ∀ {s t u}, R s t → R t u → R s u)
    (hstep : ∀ {db op db'}, Step dir db op db' → R db db') (ops : List Op) (db : Db) :
    R db (ops.foldl (Op.tried dir) db) := by
  induction ops generalizing db with
  | nil => exact hrefl db
  | cons op ops ih =>
    refine htrans ?_ (ih _)
    unfold Op.tried
    split
    · next hrun => exact hstep hrun
    · exact hrefl db

/-- Run operations in turn, and list the steps. -/
def Op.runAll (dir : Directory) : List Op → Db → Except Error (List (Db × Op × Db) × Db)
  | [], db => .ok ([], db)
  | op :: ops, db => do
    let db₁ ← op.run dir db
    let (l, db') ← runAll dir ops db₁
    return ((db, op, db₁) :: l, db')

/-- Operations that are all successful are a run. -/
theorem run_of_runAll {dir : Directory} {ops : List Op} {db db' : Db} {l : List (Db × Op × Db)}
    (h : Op.runAll dir ops db = .ok (l, db')) : Run dir db l db' := by
  induction ops generalizing db l with
  | nil =>
    cases h
    exact .nil
  | cons op ops ih =>
    obtain ⟨db₁, hop, h⟩ := Except.bind_eq_ok.mp h
    obtain ⟨⟨l₁, db₂⟩, hrest, h⟩ := Except.bind_eq_ok.mp h
    cases h
    exact (Trail.nil.snoc hop).append (ih hrest)

/-- The steps are those of the operations. -/
theorem ops_of_runAll {dir : Directory} {ops : List Op} {db db' : Db} {l : List (Db × Op × Db)}
    (h : Op.runAll dir ops db = .ok (l, db')) : l.map (·.2.1) = ops := by
  induction ops generalizing db l with
  | nil =>
    cases h
    rfl
  | cons op ops ih =>
    obtain ⟨db₁, -, h⟩ := Except.bind_eq_ok.mp h
    obtain ⟨⟨l₁, db₂⟩, hrest, h⟩ := Except.bind_eq_ok.mp h
    cases h
    exact congrArg (op :: ·) (ih hrest)

/-- Run operations in turn from the empty database, and a transaction on the
state they lead to. -/
def Op.runThen {α : Type} (dir : Directory) (ops : List Op) (p : Tx α) :
    Except Error (Db × α × Db) := do
  let (_, db) ← runAll dir ops .empty
  let (a, db') ← Tx.run p db
  return (db, a, db')

/-- The transaction ran on a reachable state. -/
theorem ok_of_runThen {α : Type} {dir : Directory} {ops : List Op} {p : Tx α} {db db' : Db} {a : α}
    (h : Op.runThen dir ops p = .ok (db, a, db')) :
    Reachable dir db ∧ Tx.run p db = .ok (a, db') := by
  obtain ⟨⟨l, db₁⟩, hops, h⟩ := Except.bind_eq_ok.mp h
  obtain ⟨⟨a₁, db₂⟩, hrun, h⟩ := Except.bind_eq_ok.mp h
  cases h
  exact ⟨⟨l, run_of_runAll hops⟩, hrun⟩

/-! ## What a step is

The routes and services are taken apart here, once. What an operation has done
is a function of the state before it; later modules look at its cases and never
at a program again. -/

/-- Everything a successful operation can have been. -/
inductive Effect (dir : Directory) (db : Db) : Op → Db → Prop
  | catalog {op : CatalogOp} {c : Catalog} (h : op.run dir db.catalog = .ok c) :
      Effect dir db (.catalog op) { db with catalog := c }
  | submit {actor : Employee} {id : Uuid} {reason : String} {fields : RequestFields}
      {r : RequestService.Resolved} {row : TimeOffRequest}
      (hrow : row = RequestService.newRequest id actor.id reason fields r)
      (hres : RequestService.Resolves dir fields db r) (hnew : ¬ db.requests.Has id)
      (hfloor : r.version.kind ≠ .UNLIMITED →
        r.version.floor ≤ (db.snapshotOf row.account).balanceMinutes
          - (db.snapshotOf row.account).pendingHoldMinutes - row.totalMinutes) :
      Effect dir db (.submit actor id reason fields) (db.afterSubmit row r.version.kind)
  | decide {actor : Employee} {id : Uuid} {approve : Bool} {note : Option String}
      {r : TimeOffRequest} {v : PolicyVersion} (hfind : db.requests.find? id = some r)
      (hpending : r.status = .PENDING) (hv : db.catalog.version r.policyVersionId = some v)
      (hfloor : approve ∧ v.kind ≠ .UNLIMITED →
        v.floor ≤ (db.snapshotOf r.account).balanceMinutes
          - (db.snapshotOf r.account).pendingHoldMinutes) :
      Effect dir db (.decide actor id approve note)
        (db.afterDecide r approve v.kind (RequestService.decision approve actor.id note))
  | cancel {actor : Employee} {id : Uuid} {today : Date} {r : TimeOffRequest}
      (hfind : db.requests.find? id = some r) (hlive : r.status.LIVE = true)
      (hstart : today < r.startDate) :
      Effect dir db (.cancel actor id today)
        (db.afterCancel r (RequestService.cancellation r.status actor.id))
  | runScheduled {companyId : String} {asOf : Date} {ps : List Posting} {outcome : JobRun}
      (hplan : AccrualService.scheduledPlan db.catalog dir companyId asOf = .ok ps) :
      Effect dir db (.runScheduled companyId asOf) ((db.postAccruals ps).recordRun outcome)
  | onPayrollProcessed {companyId payrollRunId : String} {periodEnd : Date}
      {minutesByEmployee : AccrualService.MinutesByEmployee} {ps : List Posting} {outcome : JobRun}
      (hplan : AccrualService.payrollPlan db.catalog dir companyId payrollRunId periodEnd
        minutesByEmployee = .ok ps) :
      Effect dir db (.onPayrollProcessed companyId payrollRunId periodEnd minutesByEmployee)
        ((db.postAccruals ps).recordRun outcome)
  | rollover {companyId : String} {asOf : Date} {outcome : JobRun} :
      Effect dir db (.rollover companyId asOf)
        ((db.closeAccounts companyId (RolloverService.closingDay asOf)
          (db.catalog.assignmentsCovering companyId none
            (RolloverService.closingDay asOf))).recordRun outcome)

theorem map_snd_eq_ok {α β : Type} {x : Except Error (α × β)} {b : β}
    (h : x.map Prod.snd = .ok b) : ∃ a, x = .ok (a, b) := by
  cases x with
  | error e => cases h
  | ok y =>
    cases h
    exact ⟨y.1, rfl⟩

/-- Every successful operation is one of these. -/
theorem effect_of_step {dir : Directory} {db db' : Db} {op : Op} (h : Step dir db op db') :
    Effect dir db op db' := by
  cases op with
  | catalog op =>
    simp only [Step, Op.run] at h
    cases hc : op.run dir db.catalog with
    | error e =>
      simp only [hc] at h
      cases h
    | ok c =>
      simp only [hc] at h
      cases h
      exact .catalog hc
  | submit actor id reason fields =>
    obtain ⟨row, hexec⟩ := map_snd_eq_ok h
    obtain ⟨r, hres, hrow, hnew, hfloor, rfl⟩ :=
      RequestService.submit_cases (Api.submit_cases hexec)
    exact .submit hrow hres hnew hfloor
  | decide actor requestId approve note =>
    obtain ⟨row, hrow⟩ := map_snd_eq_ok h
    obtain ⟨r, v, hfind, hpending, hv, hfloor, rfl⟩ :=
      RequestService.decide_cases (Api.decide_cases hrow)
    exact .decide hfind hpending hv hfloor
  | cancel actor requestId today =>
    obtain ⟨row, hrow⟩ := map_snd_eq_ok h
    obtain ⟨r, hfind, hcancel⟩ := Api.cancel_cases hrow
    obtain ⟨hlive, hstart, rfl⟩ := RequestService.cancel_cases hcancel
    exact .cancel hfind hlive hstart
  | runScheduled companyId asOf =>
    obtain ⟨outcome, hrun⟩ := map_snd_eq_ok h
    -- a job run is its plan, if it has one, posted in order
    rw [AccrualService.run_runScheduled] at hrun
    cases hplan : AccrualService.scheduledPlan db.catalog dir companyId asOf with
    | error e =>
      rw [hplan] at hrun
      cases hrun
    | ok ps =>
      rw [hplan] at hrun
      cases hrun
      exact .runScheduled hplan
  | onPayrollProcessed companyId payrollRunId periodEnd minutesByEmployee =>
    obtain ⟨outcome, hrun⟩ := map_snd_eq_ok h
    rw [AccrualService.run_onPayrollProcessed] at hrun
    cases hplan : AccrualService.payrollPlan db.catalog dir companyId payrollRunId periodEnd
        minutesByEmployee with
    | error e =>
      rw [hplan] at hrun
      cases hrun
    | ok ps =>
      rw [hplan] at hrun
      cases hrun
      exact .onPayrollProcessed hplan
  | rollover companyId asOf =>
    obtain ⟨outcome, hrun⟩ := map_snd_eq_ok h
    rw [RolloverService.run_run] at hrun
    cases hrun
    exact .rollover

/-! ## The catalog along a run

Two operations write versions, and both append: what was stored of a version
stays true of it, so an entry or a request may name one for good. -/

/-- The operation writes a policy version. -/
def CatalogOp.WritesVersion : CatalogOp → Prop
  | .createPolicy .. | .updatePolicy .. => True
  | _ => False

/-- Every other operation leaves the versions alone. -/
theorem CatalogOp.versions_eq {dir : Directory} {c d : Catalog} {op : CatalogOp}
    (h : op.run dir c = .ok d) (hop : ¬ op.WritesVersion) : d.versions = c.versions := by
  cases op with
  | createCategory category =>
    obtain ⟨categories, -, h⟩ := Except.bind_eq_ok.mp h
    cases h
    rfl
  | createPolicy => exact absurd trivial hop
  | updatePolicy => exact absurd trivial hop
  | assign policyId effectiveFrom employees =>
    obtain ⟨policy, -, h⟩ := Except.bind_eq_ok.mp h
    exact AssignmentService.assign_versions h
  | endAssignment assignmentId effectiveTo =>
    obtain ⟨assignment, -, h⟩ := Except.bind_eq_ok.mp h
    exact AssignmentService.endAssignment_versions h
  | createGroup companyId id name employeeIds =>
    obtain ⟨groups, members, rfl⟩ := GroupService.create_eq h
    rfl
  | setPolicyAudience policyId allEmployees groupIds effectiveFrom newId =>
    obtain ⟨policy, -, h⟩ := Except.bind_eq_ok.mp h
    exact GroupService.setPolicyAudience_versions h
  | replaceMembers groupId employeeIds effectiveFrom newId =>
    obtain ⟨group, -, h⟩ := Except.bind_eq_ok.mp h
    exact GroupService.replaceMembers_versions h
  | setEmployeeGroup companyId employeeId groupId effectiveFrom newId =>
    exact GroupService.setEmployeeGroup_versions h
  | removeGroup groupId effectiveFrom newId =>
    obtain ⟨group, -, h⟩ := Except.bind_eq_ok.mp h
    exact GroupService.remove_versions h
  | addHoliday holiday => exact HolidayService.addHoliday_versions h
  | ensureYear companyId statutory => exact HolidayService.ensureYear_versions h

/-- Operations on the catalog leave the versions alone, or append one. -/
theorem CatalogOp.appends {dir : Directory} {c d : Catalog} {op : CatalogOp}
    (h : op.run dir c = .ok d) : c.Appends d := by
  by_cases hop : op.WritesVersion
  · cases op with
    | createPolicy companyId policyId versionId name categoryId fields rules =>
      exact PolicyService.create_appends h
    | updatePolicy policyId versionId name fields rules =>
      obtain ⟨policy, -, h⟩ := Except.bind_eq_ok.mp h
      exact PolicyService.update_appends h
    | _ => exact absurd hop id
  · exact Or.inl (CatalogOp.versions_eq h hop)

/-- So they only add versions, with rates in range. -/
theorem CatalogOp.grows {dir : Directory} {c d : Catalog} {op : CatalogOp}
    (h : op.run dir c = .ok d) : c.Grows d :=
  (CatalogOp.appends h).grows

/-! ## The demo company

The directory, the keys and the operations that the examples of all modules run
on. -/

namespace Demo

/-- The fixtures of `company_service` and `employee_service`. -/
def directory : Directory where
  companies := ⟨[⟨"cmp_warp_demo", ofYmd 2026 1 5⟩], by decide⟩
  employees := ⟨
    [ { id := "emp_ada", companyId := "cmp_warp_demo", name := "Ada Lovelace"
        startDate := ofYmd 2023 3 1, workMinutesPerDay := 480, workDays := [1, 2, 3, 4, 5] },
      { id := "emp_grace", companyId := "cmp_warp_demo", name := "Grace Hopper"
        startDate := ofYmd 2026 2 18, workMinutesPerDay := 480, workDays := [1, 2, 3, 4, 5] },
      { id := "emp_alan", companyId := "cmp_warp_demo", name := "Alan Turing"
        startDate := ofYmd 2024 1 15, workMinutesPerDay := 360, workDays := [1, 2, 3, 4, 5] },
      { id := "emp_katherine", companyId := "cmp_warp_demo", name := "Katherine Johnson"
        startDate := ofYmd 2025 11 1, workMinutesPerDay := 480, workDays := [1, 2, 3, 4, 5] },
      { id := "emp_linus", companyId := "cmp_warp_demo", name := "Linus Torvalds"
        startDate := ofYmd 2025 1 6, workMinutesPerDay := 480, workDays := [1, 2, 3, 4, 5] },
      { id := "adm_lindsey", companyId := "cmp_warp_demo", name := "Lindsey Poisson"
        startDate := ofYmd 2022 1 3, workMinutesPerDay := 480, workDays := [1, 2, 3, 4, 5]
        isAdmin := true } ], by decide⟩

/-- `adm_lindsey` -/
def admin : Employee :=
  { id := "adm_lindsey", companyId := "cmp_warp_demo", name := "Lindsey Poisson"
    startDate := ofYmd 2022 1 3, workMinutesPerDay := 480, workDays := [1, 2, 3, 4, 5]
    isAdmin := true }

/-- Some generated keys. -/
def key (n : Fin 10) : Uuid :=
  ⟨"00000000-0000-4000-8000-00000000000" ++ n.val.repr, by revert n; decide⟩

/-- Keys by what they are used for. -/
def categoryId : Uuid := key 0
def policyId : Uuid := key 1
def versionId : Uuid := key 2
def assignmentId : Uuid := key 3
def ruleId : Uuid := key 4
def requestId : Uuid := key 5
def nextVersionId : Uuid := key 6
def nextRuleId : Uuid := key 7
def otherRequestId : Uuid := key 8
def groupId : Uuid := key 9

/-- Some more of them. -/
def laterKey (n : Fin 10) : Uuid :=
  ⟨"00000000-0000-4000-8000-00000000001" ++ n.val.repr, by revert n; decide⟩

def nextAssignmentId : Uuid := laterKey 1
def otherAssignmentId : Uuid := laterKey 2
def otherCategoryId : Uuid := laterKey 3
def otherPolicyId : Uuid := laterKey 4

/-- A category with one policy from January 1, 2026 on, given to Ada. -/
def openPolicy (fields : VersionFields) (rules : List AccrualRule) : List Op :=
  [ .catalog (.createCategory ⟨categoryId, "cmp_warp_demo", "Vacation"⟩),
    .catalog (.createPolicy "cmp_warp_demo" policyId versionId "Core vacation" categoryId fields
      rules),
    .catalog (.assign policyId (ofYmd 2026 1 1) [("emp_ada", assignmentId)]) ]

/-- Ada's assignment and account with it. -/
def assignment : PolicyAssignment :=
  ⟨assignmentId, "cmp_warp_demo", "emp_ada", policyId, categoryId, ofYmd 2026 1 1, none⟩

/-- Ada's account with the policy. -/
def account : Account := ⟨"emp_ada", policyId⟩

/-- Ada asks for time off. -/
def request (id : Uuid) (first last : Date) : Op :=
  .submit admin id "Time off"
    { employeeId := "emp_ada", categoryId := categoryId, startDate := first, endDate := last }

/-- One day. -/
def dayOff (id : Uuid) (day : Date) : Op := request id day day

/-- Ada accrues a day at the start of every month, up to `maxBalanceMinutes`. -/
def monthlyDay (maxBalanceMinutes : Option Int) : List Op :=
  openPolicy
    { effectiveFrom := ofYmd 2026 1 1, kind := .ACCRUAL, maxBalanceMinutes := maxBalanceMinutes }
    [{ method := .TIME, amount := 1, unit := .DAY, frequency := some .MONTHLY
       accruesAt := some .START_OF_PERIOD, id := ruleId }]

/-- Ada earns an hour for every hour of work. -/
def hourly : List Op :=
  openPolicy { effectiveFrom := ofYmd 2026 1 1, kind := .ACCRUAL }
    [{ method := .HOURS_WORKED, amount := 1, unit := .HOUR, perMinutesWorked := some 60
       id := ruleId }]

end Demo

end TimeOff
