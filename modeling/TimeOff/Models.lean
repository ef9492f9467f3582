import Mathlib.Data.List.Sort
import TimeOff.Domain.Requests
import TimeOff.Domain.Rules
import TimeOff.Lib.Table
import TimeOff.Lib.Text

/-!
# Stored rows

The tables of the application with the constraints the database keeps: primary
keys and other constraints are part of the types, so no state can violate them.
Dependent rows that are only written and read with their parent (the rules of a
policy version, the days and events of a request) are stored inside it.

The `Catalog` holds what administrators configure; the other tables of a `Db`
are what jobs and requests write. Employees and companies come from external
services (`Directory`).

A row has the columns that some operation reads, writes or shows. Left out are
the timestamps (`created_at`, `decided_at`, an event's `at`), `created_by`,
`change_reason` and `tenure_transition` of rows of the catalog, the icon of a
category, the error of a job run and the e-mail address, employment type and
work state of an employee, on which nothing here depends. Rows are kept in the
order of their insertion, which for transactions that run one after the other is
the order of `created_at` and `at` that some queries ask for.

Two bounds of the running system are not part of these types. A date of Python
ends with 9999-12-31, and a computed date beyond it raises; a ledger column has
32 bits, and an insert of a larger amount fails. Where the code would fail so,
the model goes on: dates and minutes are unbounded here, and what is proved of
an operation is about the runs in which it returns. `Domain.Calendar` has the
periods with the ends of the calendar, `Policies.Storage` the columns of the
policy tables, and `Domain.Rounding` the digits of the decimal context.
-/

namespace TimeOff

open Gregorian

/-! ## External services -/

/-- What `company_service` knows of a company. -/
structure Company where
  id : String
  /-- Anchor for the weekly and biweekly accrual periods. -/
  payPeriodAnchor : Date
deriving DecidableEq, Repr

/-- What `employee_service` knows of an employee. -/
structure Employee where
  id : String
  companyId : String
  name : String
  startDate : Date
  /-- 480 is standard; 360 is a 6-hour day. -/
  workMinutesPerDay : Int
  workDays : List Int
  isAdmin : Bool := false
  work_positive : 0 < workMinutesPerDay := by decide
deriving DecidableEq, Repr

/-- `{text!r}` in the text of an error. -/
def quoted (text : String) : String := Text.literal text

/-- The two external services: who there is, each with a key. -/
structure Directory where
  companies : Table String Company Company.id
  employees : Table String Employee Employee.id

namespace Directory

/-- `company_service.get` -/
def company (dir : Directory) (companyId : String) : Except Error Company :=
  match dir.companies.find? companyId with
  | some company => .ok company
  | none => .error (.lookup ("unknown company " ++ quoted companyId))

/-- `employee_service.get` -/
def employee (dir : Directory) (employeeId : String) : Except Error Employee :=
  match dir.employees.find? employeeId with
  | some employee => .ok employee
  | none => .error (.lookup ("unknown employee " ++ quoted employeeId))

/-- `employee_service.list_for_company` -/
def listForCompany (dir : Directory) (companyId : String) : List Employee :=
  dir.employees.rows.filter fun employee => employee.companyId = companyId

end Directory

/-! ## The catalog -/

/-- A category of a company, such as vacation. -/
structure TimeOffCategory where
  id : Uuid
  companyId : String
  name : String
deriving DecidableEq, Repr

/-- A group of employees that policies can aim at. -/
structure EmployeeGroup where
  id : Uuid
  companyId : String
  name : String
deriving DecidableEq, Repr

/-- An employee in a group. -/
structure EmployeeGroupMember where
  groupId : Uuid
  employeeId : String
  companyId : String
deriving DecidableEq, Repr

/-- A policy; what it grants is in its versions. -/
structure Policy where
  id : Uuid
  companyId : String
  categoryId : Uuid
  name : String
  allEmployees : Bool := false
deriving DecidableEq, Repr

/-- A policy aims at a group. -/
structure PolicyGroupTarget where
  policyId : Uuid
  groupId : Uuid
deriving DecidableEq, Repr

/-- A stored rule. -/
structure AccrualRule extends RuleFields where
  id : Uuid
deriving DecidableEq, Repr

/-- What a payload fixes about a policy version, its rules apart. -/
structure VersionFields where
  effectiveFrom : Date
  kind : PolicyKind
  newHireProration : NewHireProration := .PRORATE
  allowNegative : Bool := false
  negativeFloorMinutes : Int := 0
  maxBalanceMinutes : Option Int := none
  carryoverCapMinutes : Option Int := none
  expiresAtPeriodEnd : Bool := false
deriving DecidableEq, Repr

/-- A version of a policy, in force from its date until the next one begins. -/
structure PolicyVersion extends VersionFields where
  id : Uuid
  policyId : Uuid
  versionNo : Int
  rules : List AccrualRule
deriving DecidableEq, Repr

/-- The lowest balance a request may leave. -/
def VersionFields.floor (version : VersionFields) : Int :=
  if version.allowNegative then version.negativeFloorMinutes else 0

/-- A stretch of eligibility of an employee for a policy, its last day included. -/
structure PolicyAssignment where
  id : Uuid
  companyId : String
  employeeId : String
  policyId : Uuid
  categoryId : Uuid
  effectiveFrom : Date
  effectiveTo : Option Date := none
deriving DecidableEq, Repr

namespace PolicyAssignment

/-- The assignment covers `day`. -/
def Covers (a : PolicyAssignment) (day : Date) : Prop :=
  a.effectiveFrom ≤ day ∧ ∀ last ∈ a.effectiveTo, day ≤ last

instance (a : PolicyAssignment) (day : Date) : Decidable (a.Covers day) :=
  inferInstanceAs (Decidable (a.effectiveFrom ≤ day ∧ ∀ last ∈ a.effectiveTo, day ≤ last))

/-- The exclusion constraint: two assignments of an employee in one category
share a day. -/
def Conflicts (a b : PolicyAssignment) : Prop :=
  a.employeeId = b.employeeId ∧ a.categoryId = b.categoryId ∧
    (∀ last ∈ b.effectiveTo, a.effectiveFrom ≤ last) ∧
    (∀ last ∈ a.effectiveTo, b.effectiveFrom ≤ last)

instance (a b : PolicyAssignment) : Decidable (a.Conflicts b) :=
  inferInstanceAs (Decidable (_ ∧ _ ∧ _ ∧ _))

/-- Assignments that cover one day share it. -/
theorem conflicts_of_covers {a b : PolicyAssignment} {day : Date}
    (hemployee : a.employeeId = b.employeeId) (hcategory : a.categoryId = b.categoryId)
    (ha : a.Covers day) (hb : b.Covers day) : a.Conflicts b :=
  ⟨hemployee, hcategory, fun last hlast => ha.1.trans (hb.2 last hlast),
    fun last hlast => hb.1.trans (ha.2 last hlast)⟩

/-- A date range has its ends in order. -/
def Ordered (a : PolicyAssignment) : Prop := ∀ last ∈ a.effectiveTo, a.effectiveFrom ≤ last

instance (a : PolicyAssignment) : Decidable a.Ordered :=
  inferInstanceAs (Decidable (∀ last ∈ a.effectiveTo, a.effectiveFrom ≤ last))

end PolicyAssignment

/-- A day off for a whole company. -/
structure Holiday where
  companyId : String
  date : Date
  name : String
  observed : Bool := false
deriving DecidableEq, Repr

/-- Unique ids, and unique names within a company. -/
def NamedOnce {ρ : Type} (id : ρ → Uuid) (companyId name : ρ → String) (rows : List ρ) : Prop :=
  (rows.map id).Nodup ∧ (rows.map fun r => (companyId r, name r)).Nodup

instance {ρ : Type} (id : ρ → Uuid) (companyId name : ρ → String) :
    DecidablePred (NamedOnce id companyId name) :=
  fun _ => inferInstanceAs (Decidable (_ ∧ _))

/-- A group lists an employee once, and an employee has one group per company. -/
def MembersOnce (rows : List EmployeeGroupMember) : Prop :=
  (rows.map fun m => (m.groupId, m.employeeId)).Nodup ∧
    (rows.map fun m => (m.companyId, m.employeeId)).Nodup

instance : DecidablePred MembersOnce := fun _ => inferInstanceAs (Decidable (_ ∧ _))

/-- The constraints on policy versions and their rules: unique ids, one version
per policy and number, one per policy and effective date, unique rule ids. -/
structure VersionsOnce (rows : List PolicyVersion) : Prop where
  id_unique : (rows.map (·.id)).Nodup
  number_unique : (rows.map fun v => (v.policyId, v.versionNo)).Nodup
  effective_unique : (rows.map fun v => (v.policyId, v.effectiveFrom)).Nodup
  rule_unique : ((rows.flatMap (·.rules)).map (·.id)).Nodup

instance : DecidablePred VersionsOnce := fun rows =>
  decidable_of_iff
    ((rows.map (·.id)).Nodup ∧ (rows.map fun v => (v.policyId, v.versionNo)).Nodup ∧
      (rows.map fun v => (v.policyId, v.effectiveFrom)).Nodup ∧
      ((rows.flatMap (·.rules)).map (·.id)).Nodup)
    ⟨fun ⟨h₁, h₂, h₃, h₄⟩ => ⟨h₁, h₂, h₃, h₄⟩, fun ⟨h₁, h₂, h₃, h₄⟩ => ⟨h₁, h₂, h₃, h₄⟩⟩

/-- The constraints on assignments: unique ids, ranges in order, no two in
conflict. -/
structure AssignmentsApart (rows : List PolicyAssignment) : Prop where
  id_unique : (rows.map (·.id)).Nodup
  ordered : ∀ a ∈ rows, a.Ordered
  apart : rows.Pairwise fun a b => ¬ a.Conflicts b

instance : DecidablePred AssignmentsApart := fun rows =>
  decidable_of_iff
    ((rows.map (·.id)).Nodup ∧ (∀ a ∈ rows, a.Ordered) ∧
      rows.Pairwise fun a b => ¬ a.Conflicts b)
    ⟨fun ⟨h₁, h₂, h₃⟩ => ⟨h₁, h₂, h₃⟩, fun ⟨h₁, h₂, h₃⟩ => ⟨h₁, h₂, h₃⟩⟩

/-- What administrators configure. -/
structure Catalog where
  categories : Relation (NamedOnce TimeOffCategory.id TimeOffCategory.companyId
    TimeOffCategory.name)
  groups : Relation (NamedOnce EmployeeGroup.id EmployeeGroup.companyId EmployeeGroup.name)
  members : Relation MembersOnce
  policies : Relation (NamedOnce Policy.id Policy.companyId Policy.name)
  targets : Relation fun rows : List PolicyGroupTarget => rows.Nodup
  versions : Relation VersionsOnce
  assignments : Relation AssignmentsApart
  holidays : Relation fun rows : List Holiday => (rows.map fun h => (h.companyId, h.date)).Nodup

/-- Nothing is configured. -/
def Catalog.empty : Catalog where
  categories := .empty (by decide)
  groups := .empty (by decide)
  members := .empty (by decide)
  policies := .empty (by decide)
  targets := .empty (by decide)
  versions := .empty (by decide)
  assignments := .empty (by decide)
  holidays := .empty (by decide)

namespace Catalog

/-- `latest_version` -/
def latestVersion (c : Catalog) (policyId : Uuid) : Option PolicyVersion :=
  (c.versions.rows.filter fun v => v.policyId = policyId).maxOn? (·.versionNo)

/-- `version_effective_on` -/
def versionEffectiveOn (c : Catalog) (policyId : Uuid) (onDate : Date) : Option PolicyVersion :=
  (c.versions.rows.filter fun v => v.policyId = policyId ∧ v.effectiveFrom ≤ onDate).maxOn?
    (·.effectiveFrom)

/-- `policy.versions`, by version number. -/
def versionsOf (c : Catalog) (policyId : Uuid) : List PolicyVersion :=
  (c.versions.rows.filter fun v => v.policyId = policyId).insertionSort
    fun a b => a.versionNo ≤ b.versionNo

/-- They are the rows of that policy. -/
theorem mem_versionsOf {c : Catalog} {policyId : Uuid} {v : PolicyVersion} :
    v ∈ c.versionsOf policyId ↔ v ∈ c.versions.rows ∧ v.policyId = policyId := by
  simp only [versionsOf]
  rw [List.mem_insertionSort, List.mem_filter, decide_eq_true_eq]

/-- The version in force is a version of the policy that has begun, and no
other begun version began later. -/
theorem versionEffectiveOn_spec {c : Catalog} {policyId : Uuid} {onDate : Date} {v : PolicyVersion}
    (h : c.versionEffectiveOn policyId onDate = some v) :
    v ∈ c.versions.rows ∧ v.policyId = policyId ∧ v.effectiveFrom ≤ onDate ∧
      ∀ w ∈ c.versions.rows, w.policyId = policyId → w.effectiveFrom ≤ onDate →
        w.effectiveFrom ≤ v.effectiveFrom := by
  simp only [versionEffectiveOn] at h
  have hm := List.mem_filter.mp (List.maxOn?_mem h)
  simp only [decide_eq_true_eq] at hm
  refine ⟨hm.1, hm.2.1, hm.2.2, fun w hw hp he => ?_⟩
  have hmem : w ∈ c.versions.rows.filter fun v =>
      v.policyId = policyId ∧ v.effectiveFrom ≤ onDate :=
    List.mem_filter.mpr ⟨hw, decide_eq_true ⟨hp, he⟩⟩
  have hle := List.le_apply_get_maxOn?_of_mem (f := fun v : PolicyVersion => v.effectiveFrom) hmem
  rwa [Option.get_of_eq_some _ h] at hle

/-- `session.get(PolicyVersion, id)` -/
def version (c : Catalog) (id : Uuid) : Option PolicyVersion :=
  c.versions.rows.find? fun v => v.id = id

/-- A version is found by its id. -/
theorem version_eq_some {c : Catalog} {id : Uuid} {v : PolicyVersion} :
    c.version id = some v ↔ v ∈ c.versions.rows ∧ v.id = id :=
  Table.find?_eq_some (t := ⟨c.versions.rows, c.versions.holds.id_unique⟩)

end Catalog

/-! ## What jobs and requests write -/

/-- The unique source of a ledger entry. -/
abbrev SourceKey := SourceType × String

/-- An entry of the ledger, never updated or deleted. -/
structure LedgerEntry where
  companyId : String
  employeeId : String
  policyId : Uuid
  policyVersionId : Uuid
  entryType : EntryType
  amountMinutes : Int
  effectiveDate : Date
  sourceType : SourceType
  sourceId : String
  note : String
deriving DecidableEq, Repr

/-- What may not be entered twice. -/
def LedgerEntry.key (e : LedgerEntry) : SourceKey := (e.sourceType, e.sourceId)

/-- The ledger: at most one entry per source. -/
abbrev Ledger := Table SourceKey LedgerEntry LedgerEntry.key

/-- An employee's account with a policy. -/
structure Account where
  employeeId : String
  policyId : Uuid
deriving DecidableEq, Repr

/-- The account an entry counts for. -/
def LedgerEntry.account (e : LedgerEntry) : Account := ⟨e.employeeId, e.policyId⟩

/-- `ledger_service.balance`: the minutes of an account, up to a date if one is
given. -/
def Ledger.balance (ledger : Ledger) (account : Account) (asOf : Option Date) : Int :=
  Table.sum ledger fun e =>
    if e.account = account ∧ ∀ day ∈ asOf, e.effectiveDate ≤ day then e.amountMinutes else 0

/-- A cached balance and the minutes that pending requests hold. -/
structure BalanceSnapshot where
  account : Account
  balanceMinutes : Int
  pendingHoldMinutes : Int
deriving DecidableEq, Repr

/-- A change of a request's status, and who made it. -/
structure RequestEvent where
  fromStatus : Option RequestStatus
  toStatus : RequestStatus
  actorId : String
  note : Option String := none
deriving DecidableEq, Repr

/-- A request with what it froze at its submission: the version, the charged
days and their minutes. -/
structure TimeOffRequest where
  id : Uuid
  companyId : String
  employeeId : String
  policyId : Uuid
  policyVersionId : Uuid
  categoryId : Uuid
  reason : String
  status : RequestStatus
  startDate : Date
  endDate : Date
  totalMinutes : Int
  isPartialDay : Bool
  createdBy : String
  decidedBy : Option String := none
  days : List RequestDay
  events : List RequestEvent
deriving DecidableEq, Repr

/-- The account a request is charged to. -/
def TimeOffRequest.account (r : TimeOffRequest) : Account := ⟨r.employeeId, r.policyId⟩

/-- The audit row of a job. -/
structure JobRun where
  companyId : String
  kind : JobKind
  sourceId : String
  status : String
  entriesCreated : Int
deriving DecidableEq, Repr

/-- A state of the database. -/
structure Db where
  catalog : Catalog
  ledger : Ledger
  snapshots : Table Account BalanceSnapshot BalanceSnapshot.account
  requests : Table Uuid TimeOffRequest TimeOffRequest.id
  jobRuns : List JobRun

/-- The database of a new installation. -/
def Db.empty : Db := ⟨.empty, .empty, .empty, .empty, []⟩

end TimeOff
