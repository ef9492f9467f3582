import TimeOff.Services.Policies

/-!
# Assignment, group and holiday services

Effective-dated assignments, the employee groups a policy is aimed at, and the
reconciliation of the two. None of these touches a policy version.

An audience is all employees of the company or the members of the groups that
the policy aims at (`audienceEmployeeIds`). The four operations that change one
write targets or members first, then reconcile the policies concerned from the
change date on, each in a pass over the assignments that cover the date
(`reconcilePolicy`). An error on the way is the error of the whole operation.

The employees a pass has to add are a set that the code sorts before it goes
over them, and so are the policies of a move; the order of new rows is
determined by that (`sortedSet`). Generated keys are an argument: `newId` has
one for each policy and employee.
-/

namespace TimeOff

open Gregorian

namespace AssignmentService

/-- `assign`: one assignment per employee, each with its generated key. -/
def assign (dir : Directory) (policy : Policy) (effectiveFrom : Date) :
    List (String × Uuid) → Catalog → Except Error Catalog
  | [], c => .ok c
  | (employeeId, id) :: rest, c =>
    match dir.employees.find? employeeId with
    | none => .error (.assignment ("Unknown employee " ++ quoted employeeId ++ "."))
    | some employee =>
      if employee.companyId ≠ policy.companyId then
        .error (.assignment ("Employee " ++ quoted employeeId ++ " belongs to another company."))
      else
        match Relation.set? (c.assignments.rows ++
          [{ id, companyId := policy.companyId, employeeId, policyId := policy.id
             categoryId := policy.categoryId, effectiveFrom }]) with
        | none => .error (.assignment
            (employeeId ++ " already has a policy in this category for that date."))
        | some assignments =>
          assign dir policy effectiveFrom rest { c with assignments := assignments }

/-- `end` -/
def endAssignment (c : Catalog) (assignment : PolicyAssignment) (effectiveTo : Date) :
    Except Error Catalog :=
  if effectiveTo < assignment.effectiveFrom then
    .error (.assignment "An assignment cannot end before it starts.")
  else if assignment.effectiveTo.isSome then
    .error (.assignment "This assignment has already ended.")
  else do
    let assignments ← constrained (c.assignments.rows.map fun row =>
      if row.id = assignment.id then { row with effectiveTo := some effectiveTo } else row)
    return { c with assignments := assignments }

end AssignmentService

namespace GroupService

/-- `_employees`: the distinct ids, if all of them can join. -/
def employees (dir : Directory) (companyId : String) (employeeIds : List String) :
    Except Error (List String) :=
  let uniqueIds := employeeIds.eraseDups
  match uniqueIds.find? fun id =>
    ∀ employee ∈ dir.employees.find? id, employee.companyId ≠ companyId ∨ employee.isAdmin with
  | none => .ok uniqueIds
  | some id =>
    match dir.employees.find? id with
    | none => .error (.group ("Unknown employee " ++ quoted id ++ "."))
    | some _ => .error (.group ("Employee " ++ quoted id ++ " cannot join this group."))

/-- `_ensure_available` -/
def ensureAvailable (c : Catalog) (dir : Directory) (companyId : String)
    (employeeIds : List String) (exceptGroupId : Option Uuid) : Except Error Unit :=
  match c.members.rows.find? fun m =>
    m.companyId = companyId ∧ m.employeeId ∈ employeeIds ∧ ∀ g ∈ exceptGroupId, m.groupId ≠ g with
  | none => .ok ()
  | some existing => do
    let employee ← dir.employee existing.employeeId
    .error (.group (employee.name ++ " already belongs to another group."))

/-- `create` -/
def create (c : Catalog) (dir : Directory) (companyId : String) (id : Uuid) (name : String)
    (employeeIds : List String) : Except Error Catalog := do
  let employeeIds ← employees dir companyId employeeIds
  ensureAvailable c dir companyId employeeIds none
  let name := Text.strip name
  if name = "" then .error (.group "Group name cannot be blank.")
  else if ∃ g ∈ c.groups.rows, g.companyId = companyId ∧ g.name = name then
    .error (.group "A group with this name already exists.")
  else do
    let groups ← constrained (c.groups.rows ++ [⟨id, companyId, name⟩])
    let members ← constrained (c.members.rows ++
      employeeIds.map fun employeeId => ⟨id, employeeId, companyId⟩)
    return { c with groups := groups, members := members }

/-- `audience_employee_ids` -/
def audienceEmployeeIds (c : Catalog) (dir : Directory) (policy : Policy) : List String :=
  if policy.allEmployees then
    ((dir.listForCompany policy.companyId).filter fun e => !e.isAdmin).map (·.id)
  else
    (c.members.rows.filter fun m =>
      ∃ t ∈ c.targets.rows, t.groupId = m.groupId ∧ t.policyId = policy.id).map (·.employeeId)

/-- `sorted` of a set of texts. -/
def sortedSet (texts : List String) : List String :=
  texts.eraseDups.insertionSort fun a b => a ≤ b

/-- An assignment error is raised on as a group error. -/
def asGroupError (result : Except Error Catalog) : Except Error Catalog :=
  match result with
  | .error (.assignment message) => .error (.group message)
  | result => result

/-- `reconcile_policy`; `newId` generates the keys of new assignments. -/
def reconcilePolicy (dir : Directory) (effectiveFrom : Date) (newId : Uuid → String → Uuid)
    (policy : Policy) (c : Catalog) : Except Error Catalog := do
  let desired := audienceEmployeeIds c dir policy
  let active := c.assignments.rows.filter fun a =>
    a.policyId = policy.id ∧ a.Covers effectiveFrom
  let missing := sortedSet (desired.filter fun id => id ∉ active.map (·.employeeId))
  let c ← asGroupError (AssignmentService.assign dir policy effectiveFrom
    (missing.map fun id => (id, newId policy.id id)) c)
  let leaving := active.filter fun a => a.employeeId ∉ desired
  let rows := c.assignments.rows.filterMap fun row =>
    if ¬ leaving.any (·.id = row.id) then some row
    else if row.effectiveFrom = effectiveFrom then none
    else some { row with effectiveTo := some (effectiveFrom.addDays (-1)) }
  let assignments ← constrained rows
  return { c with assignments := assignments }

/-- Reconcile several policies in turn. -/
def reconcilePolicies (dir : Directory) (effectiveFrom : Date) (newId : Uuid → String → Uuid)
    (policies : List Policy) (c : Catalog) : Except Error Catalog :=
  policies.foldlM (fun c policy => reconcilePolicy dir effectiveFrom newId policy c) c

/-- `set_policy_audience` -/
def setPolicyAudience (c : Catalog) (dir : Directory) (policy : Policy) (allEmployees : Bool)
    (groupIds : List Uuid) (effectiveFrom : Date) (newId : Uuid → String → Uuid) :
    Except Error Catalog :=
  let groupIds := groupIds.eraseDups
  let groups := c.groups.rows.filter fun g => g.companyId = policy.companyId ∧ g.id ∈ groupIds
  if groups.length ≠ groupIds.length then
    .error (.group "One or more selected groups do not exist.")
  else if ¬ allEmployees ∧ groupIds = [] then
    .error (.group "Choose all employees or at least one employee group.")
  else do
    let policies ← constrained (c.policies.rows.map fun row =>
      if row.id = policy.id then { row with allEmployees } else row)
    let targets ← constrained ((c.targets.rows.filter fun t => t.policyId ≠ policy.id) ++
      if allEmployees then [] else groupIds.map fun groupId => ⟨policy.id, groupId⟩)
    reconcilePolicy dir effectiveFrom newId { policy with allEmployees }
      { c with policies := policies, targets := targets }

/-- The policies aimed at a group. -/
def targetingPolicies (c : Catalog) (groupId : Uuid) : List Policy :=
  c.policies.rows.filter fun p => ∃ t ∈ c.targets.rows, t.policyId = p.id ∧ t.groupId = groupId

/-- `replace_members` -/
def replaceMembers (c : Catalog) (dir : Directory) (group : EmployeeGroup)
    (employeeIds : List String) (effectiveFrom : Date) (newId : Uuid → String → Uuid) :
    Except Error Catalog := do
  let employeeIds ← employees dir group.companyId employeeIds
  ensureAvailable c dir group.companyId employeeIds (some group.id)
  let members ← constrained ((c.members.rows.filter fun m => m.groupId ≠ group.id) ++
    employeeIds.map fun employeeId => ⟨group.id, employeeId, group.companyId⟩)
  reconcilePolicies dir effectiveFrom newId (targetingPolicies c group.id)
    { c with members := members }

/-- `set_employee_group` -/
def setEmployeeGroup (c : Catalog) (dir : Directory) (companyId employeeId : String)
    (groupId : Option Uuid) (effectiveFrom : Date) (newId : Uuid → String → Uuid) :
    Except Error Catalog := do
  let _ ← employees dir companyId [employeeId]
  if ∃ id ∈ groupId, ∀ g ∈ c.groups.rows, ¬ (g.id = id ∧ g.companyId = companyId) then
    .error (.group "The selected group does not exist.")
  else do
    let current := c.members.rows.find? fun m =>
      m.companyId = companyId ∧ m.employeeId = employeeId
    let oldGroupId := current.map (·.groupId)
    if oldGroupId.isSome ∧ oldGroupId = groupId then .ok c
    else do
      let policyIds (group : Option Uuid) : List Uuid :=
        (c.targets.rows.filter fun t => some t.groupId = group).map (·.policyId)
      let old := policyIds oldGroupId
      let new := policyIds groupId
      let members ← constrained ((c.members.rows.filter fun m =>
          ¬ (m.companyId = companyId ∧ m.employeeId = employeeId)) ++
        groupId.toList.map fun id => ⟨id, employeeId, companyId⟩)
      let sorted (ids : List Uuid) : List Uuid :=
        ids.eraseDups.insertionSort fun a b => a.text ≤ b.text
      let ordered := sorted (old.filter (· ∉ new)) ++ sorted (old.filter (· ∈ new)) ++
        sorted (new.filter (· ∉ old))
      reconcilePolicies dir effectiveFrom newId
        (ordered.filterMap fun id => c.policies.rows.find? fun p => p.id = id)
        { c with members := members }

/-- `remove` -/
def remove (c : Catalog) (dir : Directory) (group : EmployeeGroup) (effectiveFrom : Date)
    (newId : Uuid → String → Uuid) : Except Error Catalog := do
  let policies := targetingPolicies c group.id
  let targets ← constrained (c.targets.rows.filter fun t => t.groupId ≠ group.id)
  let c ← reconcilePolicies dir effectiveFrom newId policies { c with targets := targets }
  let groups ← constrained (c.groups.rows.filter fun g => g.id ≠ group.id)
  let members ← constrained (c.members.rows.filter fun m => m.groupId ≠ group.id)
  return { c with groups := groups, members := members }

end GroupService

namespace HolidayService

/-- `add_holiday`: insert, or rename the holiday of that day. -/
def addHoliday (c : Catalog) (holiday : Holiday) : Except Error Catalog := do
  let onDay (h : Holiday) : Bool := h.companyId = holiday.companyId ∧ h.date = holiday.date
  let rows := c.holidays.rows
  let holidays ← constrained
    (if rows.any onDay then rows.map fun h => if onDay h then holiday else h
      else rows ++ [holiday])
  return { c with holidays := holidays }

/-- `ensure_year`, given the statutory holidays of the year. -/
def ensureYear (c : Catalog) (companyId : String) (statutory : List (Date × String)) :
    Except Error Catalog := do
  let holidays ← constrained (statutory.foldl (fun rows entry =>
    if ∃ h ∈ rows, h.companyId = companyId ∧ h.date = entry.1 then rows
    else rows ++ [⟨companyId, entry.1, entry.2, (entry.2.toLower.splitOn "observed").length ≠ 1⟩])
    c.holidays.rows)
  return { c with holidays := holidays }

end HolidayService

/-! ## What these write: never a version

So what holds of the stored versions lasts through them. -/

namespace AssignmentService

/-- Assignments, groups and holidays are written beside the versions. -/
theorem assign_versions {dir : Directory} {policy : Policy} {effectiveFrom : Date}
    {employees : List (String × Uuid)} {c d : Catalog}
    (h : assign dir policy effectiveFrom employees c = .ok d) : d.versions = c.versions := by
  induction employees generalizing c with
  | nil =>
    cases h
    rfl
  | cons e rest ih =>
    obtain ⟨employeeId, id⟩ := e
    unfold assign at h
    split at h
    · cases h
    split at h
    · cases h
    split at h
    · cases h
    · have hv := ih h
      exact hv

/-- Ending an assignment sets the last day of its row. -/
theorem endAssignment_ok {c d : Catalog} {a : PolicyAssignment} {effectiveTo : Date}
    (h : endAssignment c a effectiveTo = .ok d) :
    ∃ assignments, d = { c with assignments := assignments } ∧
      assignments.rows = c.assignments.rows.map fun row =>
        if row.id = a.id then { row with effectiveTo := some effectiveTo } else row := by
  unfold endAssignment at h
  split at h
  · cases h
  split at h
  · cases h
  obtain ⟨assignments, hrows, h⟩ := Except.bind_eq_ok.mp h
  cases h
  exact ⟨assignments, rfl, rows_of_constrained hrows⟩

theorem endAssignment_versions {c d : Catalog} {a : PolicyAssignment} {effectiveTo : Date}
    (h : endAssignment c a effectiveTo = .ok d) : d.versions = c.versions := by
  obtain ⟨assignments, rfl, -⟩ := endAssignment_ok h
  rfl

end AssignmentService

namespace GroupService

/-- A new group leaves the rest of the catalog alone. -/
theorem create_eq {c d : Catalog} {dir : Directory} {companyId : String} {id : Uuid}
    {name : String} {employeeIds : List String}
    (h : create c dir companyId id name employeeIds = .ok d) :
    ∃ groups members, d = { c with groups := groups, members := members } := by
  obtain ⟨_, -, h⟩ := Except.bind_eq_ok.mp h
  obtain ⟨_, -, h⟩ := Except.bind_eq_ok.mp h
  dsimp only at h
  split at h
  · cases h
  split at h
  · cases h
  · obtain ⟨groups, -, h⟩ := Except.bind_eq_ok.mp h
    obtain ⟨members, -, h⟩ := Except.bind_eq_ok.mp h
    cases h
    exact ⟨groups, members, rfl⟩

/-- A reconciliation writes assignments. -/
theorem reconcilePolicy_versions {dir : Directory} {effectiveFrom : Date}
    {newId : Uuid → String → Uuid} {policy : Policy} {c d : Catalog}
    (h : reconcilePolicy dir effectiveFrom newId policy c = .ok d) : d.versions = c.versions := by
  unfold reconcilePolicy at h
  dsimp only at h
  obtain ⟨c', hassign, h⟩ := Except.bind_eq_ok.mp h
  obtain ⟨_, -, h⟩ := Except.bind_eq_ok.mp h
  cases h
  unfold asGroupError at hassign
  split at hassign
  · cases hassign
  · have hv := AssignmentService.assign_versions hassign
    exact hv

theorem reconcilePolicies_versions {dir : Directory} {effectiveFrom : Date}
    {newId : Uuid → String → Uuid} {policies : List Policy} {c d : Catalog}
    (h : reconcilePolicies dir effectiveFrom newId policies c = .ok d) :
    d.versions = c.versions := by
  unfold reconcilePolicies at h
  induction policies generalizing c with
  | nil =>
    cases h
    rfl
  | cons p rest ih =>
    rw [List.foldlM_cons] at h
    obtain ⟨c', hp, h⟩ := Except.bind_eq_ok.mp h
    rw [ih h, reconcilePolicy_versions hp]

/-- A new audience sets the flag and the targets of the policy, and reconciles it. -/
theorem setPolicyAudience_ok {c d : Catalog} {dir : Directory} {policy : Policy}
    {allEmployees : Bool} {groupIds : List Uuid} {effectiveFrom : Date}
    {newId : Uuid → String → Uuid}
    (h : setPolicyAudience c dir policy allEmployees groupIds effectiveFrom newId = .ok d) :
    (c.groups.rows.filter fun g =>
        g.companyId = policy.companyId ∧ g.id ∈ groupIds.eraseDups).length
      = groupIds.eraseDups.length ∧
    ∃ policies targets,
      policies.rows = (c.policies.rows.map fun row =>
        if row.id = policy.id then { row with allEmployees } else row) ∧
      targets.rows = ((c.targets.rows.filter fun t => t.policyId ≠ policy.id) ++
        if allEmployees then [] else groupIds.eraseDups.map fun groupId => ⟨policy.id, groupId⟩) ∧
      reconcilePolicy dir effectiveFrom newId { policy with allEmployees }
        { c with policies := policies, targets := targets } = .ok d := by
  simp only [setPolicyAudience] at h
  split at h
  · cases h
  next hall =>
  split at h
  · cases h
  obtain ⟨policies, hpolicies, h⟩ := Except.bind_eq_ok.mp h
  obtain ⟨targets, htargets, h⟩ := Except.bind_eq_ok.mp h
  exact ⟨not_not.mp hall, policies, targets, rows_of_constrained hpolicies,
    rows_of_constrained htargets, h⟩

/-- The operations on audiences leave the versions alone, and so do those on
groups. -/
theorem setPolicyAudience_versions {c d : Catalog} {dir : Directory} {policy : Policy}
    {allEmployees : Bool} {groupIds : List Uuid} {effectiveFrom : Date}
    {newId : Uuid → String → Uuid}
    (h : setPolicyAudience c dir policy allEmployees groupIds effectiveFrom newId = .ok d) :
    d.versions = c.versions := by
  obtain ⟨-, policies, targets, -, -, h⟩ := setPolicyAudience_ok h
  have hv := reconcilePolicy_versions h
  exact hv

theorem replaceMembers_versions {c d : Catalog} {dir : Directory} {group : EmployeeGroup}
    {employeeIds : List String} {effectiveFrom : Date} {newId : Uuid → String → Uuid}
    (h : replaceMembers c dir group employeeIds effectiveFrom newId = .ok d) :
    d.versions = c.versions := by
  obtain ⟨_, -, h⟩ := Except.bind_eq_ok.mp h
  obtain ⟨_, -, h⟩ := Except.bind_eq_ok.mp h
  obtain ⟨_, -, h⟩ := Except.bind_eq_ok.mp h
  have hv := reconcilePolicies_versions h
  exact hv

theorem setEmployeeGroup_versions {c d : Catalog} {dir : Directory}
    {companyId employeeId : String} {groupId : Option Uuid} {effectiveFrom : Date}
    {newId : Uuid → String → Uuid}
    (h : setEmployeeGroup c dir companyId employeeId groupId effectiveFrom newId = .ok d) :
    d.versions = c.versions := by
  obtain ⟨_, -, h⟩ := Except.bind_eq_ok.mp h
  split at h
  · cases h
  dsimp only at h
  split at h
  · cases h
    rfl
  · obtain ⟨_, -, h⟩ := Except.bind_eq_ok.mp h
    have hv := reconcilePolicies_versions h
    exact hv

theorem remove_versions {c d : Catalog} {dir : Directory} {group : EmployeeGroup}
    {effectiveFrom : Date} {newId : Uuid → String → Uuid}
    (h : remove c dir group effectiveFrom newId = .ok d) : d.versions = c.versions := by
  obtain ⟨_, -, h⟩ := Except.bind_eq_ok.mp h
  obtain ⟨c', hc, h⟩ := Except.bind_eq_ok.mp h
  obtain ⟨_, -, h⟩ := Except.bind_eq_ok.mp h
  obtain ⟨_, -, h⟩ := Except.bind_eq_ok.mp h
  cases h
  have hv := reconcilePolicies_versions hc
  exact hv

end GroupService

namespace HolidayService

/-- And those on holidays. -/
theorem addHoliday_versions {c d : Catalog} {holiday : Holiday}
    (h : addHoliday c holiday = .ok d) : d.versions = c.versions := by
  obtain ⟨_, -, h⟩ := Except.bind_eq_ok.mp h
  cases h
  rfl

theorem ensureYear_versions {c d : Catalog} {companyId : String}
    {statutory : List (Date × String)} (h : ensureYear c companyId statutory = .ok d) :
    d.versions = c.versions := by
  obtain ⟨_, -, h⟩ := Except.bind_eq_ok.mp h
  cases h
  rfl

end HolidayService

end TimeOff
