import TimeOff.Eligibility.Reconcile
import TimeOff.Lib.Ownership

/-!
# Companies in one database

All companies share the tables. `References` says that no row points into
another company, `KeepsOthers` that the rows of all companies but one are the
same in two states. A write on behalf of a company is a `Change` when it keeps
both; which rows are a company's own is partly known through the row they point
at, so keeping the rows of others rests on the references, and `Change` also
says that policies and categories keep their company.

The order of the three notions is the order of the proofs. Each table has one
lemma (`change_members`, `change_versions`, `change_assignments`, …) that turns
two facts about its new rows, that they refer within the company and that the
rows of others are the old ones, into a `Change` of the catalog;
`change_catalog` and the lemmas for the other tables do the same for the
database. `Change.trans` composes them, so a service is checked write by write.

Where a table has a column for the company, its owner is read off the row. A
version, a snapshot and an entry of an audience have none: they are owned by the
company of their policy or group (`policyCompany`, `groupCompany`), which is why
policies and groups may not change theirs.
-/

namespace TimeOff

open Gregorian

/-- The company of an employee. -/
def Directory.employeeCompany (dir : Directory) (employeeId : String) : Option String :=
  (dir.employees.find? employeeId).map (·.companyId)

namespace Catalog

/-- The companies of categories, groups and policies. -/
def categoryCompany (c : Catalog) : Uuid → Option String :=
  ownerOf TimeOffCategory.id TimeOffCategory.companyId c.categories.rows

def groupCompany (c : Catalog) : Uuid → Option String :=
  ownerOf EmployeeGroup.id EmployeeGroup.companyId c.groups.rows

def policyCompany (c : Catalog) : Uuid → Option String :=
  ownerOf Policy.id Policy.companyId c.policies.rows

end Catalog

/-- The account is of an employee and a policy of one company. -/
def Account.Within (dir : Directory) (c : Catalog) (company : String) (a : Account) : Prop :=
  c.policyCompany a.policyId = some company ∧ dir.employeeCompany a.employeeId = some company

instance (dir : Directory) (c : Catalog) (company : String) (a : Account) :
    Decidable (a.Within dir c company) := inferInstanceAs (Decidable (_ ∧ _))

/-- An assignment, with the policy, the employee and the category it is for. -/
def PolicyAssignment.Within (dir : Directory) (c : Catalog) (company : String)
    (a : PolicyAssignment) : Prop :=
  Account.Within dir c company ⟨a.employeeId, a.policyId⟩ ∧
    c.categoryCompany a.categoryId = some company

/-- A target belongs to a company with its policy and its group. -/
def Catalog.OwnsTarget (c : Catalog) (company : String) (t : PolicyGroupTarget) : Prop :=
  c.policyCompany t.policyId = some company ∧ c.groupCompany t.groupId = some company

instance (c : Catalog) (company : String) : DecidablePred (c.OwnsTarget company) :=
  fun _ => inferInstanceAs (Decidable (_ ∧ _))

/-! ## The catalog

A change by a company keeps the references and leaves the rows of other
companies alone. Changes compose, so an operation is one if each of its writes
is. -/

namespace Catalog

/-- Every row of the catalog refers to its own company. -/
structure References (dir : Directory) (c : Catalog) : Prop where
  members : ∀ m ∈ c.members.rows, c.groupCompany m.groupId = some m.companyId ∧
    dir.employeeCompany m.employeeId = some m.companyId
  policies : ∀ p ∈ c.policies.rows, c.categoryCompany p.categoryId = some p.companyId
  targets : ∀ t ∈ c.targets.rows, ∃ company, c.OwnsTarget company t
  versions : ∀ v ∈ c.versions.rows, ∃ company, c.policyCompany v.policyId = some company
  assignments : ∀ a ∈ c.assignments.rows, a.Within dir c a.companyId

/-- The rows of other companies are the same in both catalogs. -/
structure KeepsOthers (company : String) (c d : Catalog) : Prop where
  categories : others (·.companyId = company) d.categories.rows
    = others (·.companyId = company) c.categories.rows
  groups : others (·.companyId = company) d.groups.rows
    = others (·.companyId = company) c.groups.rows
  members : others (·.companyId = company) d.members.rows
    = others (·.companyId = company) c.members.rows
  policies : others (·.companyId = company) d.policies.rows
    = others (·.companyId = company) c.policies.rows
  targets : others (d.OwnsTarget company) d.targets.rows
    = others (c.OwnsTarget company) c.targets.rows
  versions : others (fun v => d.policyCompany v.policyId = some company) d.versions.rows
    = others (fun v => c.policyCompany v.policyId = some company) c.versions.rows
  assignments : others (·.companyId = company) d.assignments.rows
    = others (·.companyId = company) c.assignments.rows
  holidays : others (·.companyId = company) d.holidays.rows
    = others (·.companyId = company) c.holidays.rows

variable {dir : Directory} {company : String} {c d e : Catalog}

/-- Keeping what others have composes. -/
theorem KeepsOthers.refl (company : String) (c : Catalog) : c.KeepsOthers company c :=
  ⟨rfl, rfl, rfl, rfl, rfl, rfl, rfl, rfl⟩

theorem KeepsOthers.trans (h : c.KeepsOthers company d) (h' : d.KeepsOthers company e) :
    c.KeepsOthers company e where
  categories := h'.categories.trans h.categories
  groups := h'.groups.trans h.groups
  members := h'.members.trans h.members
  policies := h'.policies.trans h.policies
  targets := h'.targets.trans h.targets
  versions := h'.versions.trans h.versions
  assignments := h'.assignments.trans h.assignments
  holidays := h'.holidays.trans h.holidays

/-- There is nothing to refer to yet. -/
theorem References.empty : References dir .empty := by
  constructor <;> exact fun _ h => absurd h List.not_mem_nil

/-- What a write for a company comes to. -/
structure Change (dir : Directory) (company : String) (c d : Catalog) : Prop where
  references : d.References dir
  others : c.KeepsOthers company d
  policyCompany : ∀ {id m}, c.policyCompany id = some m → d.policyCompany id = some m
  categoryCompany : ∀ {id m}, c.categoryCompany id = some m → d.categoryCompany id = some m

/-- Writing nothing is a change for any company. -/
theorem Change.refl (h : c.References dir) : c.Change dir company c :=
  ⟨h, .refl company c, id, id⟩

/-- Changes for one company compose: the owner of a row is the same after the
first. -/
theorem Change.trans (h : c.Change dir company d) (h' : d.Change dir company e) :
    c.Change dir company e where
  references := h'.references
  others := h.others.trans h'.others
  policyCompany hid := h'.policyCompany (h.policyCompany hid)
  categoryCompany hid := h'.categoryCompany (h.categoryCompany hid)

/-- An account stays within its company. -/
theorem Change.within (h : c.Change dir company d) {m : String} {a : Account}
    (ha : a.Within dir c m) : a.Within dir d m :=
  ha.imp_left h.policyCompany

/-! ### Writing one table -/

section tables

variable (h : c.References dir)

include h

/-- A member is of the company of its group. -/
theorem References.member_company {m : EmployeeGroupMember} (hm : m ∈ c.members.rows)
    (hgroup : c.groupCompany m.groupId = some company) : m.companyId = company := by
  have hsame := (h.members m hm).1
  rw [hgroup] at hsame
  exact (Option.some.inj hsame).symm

/-- The policy alone tells the company of a target. -/
theorem References.ownsTarget_of_policy {x : PolicyGroupTarget} (hx : x ∈ c.targets.rows)
    (hpolicy : c.policyCompany x.policyId = some company) : c.OwnsTarget company x := by
  obtain ⟨m, hm⟩ := h.targets x hx
  have hsame : m = company := Option.some.inj (hm.1.symm.trans hpolicy)
  exact hsame ▸ hm

/-- So does the group. -/
theorem References.ownsTarget_of_group {x : PolicyGroupTarget} (hx : x ∈ c.targets.rows)
    (hgroup : c.groupCompany x.groupId = some company) : c.OwnsTarget company x := by
  obtain ⟨m, hm⟩ := h.targets x hx
  have hsame : m = company := Option.some.inj (hm.2.symm.trans hgroup)
  exact hsame ▸ hm

/-- Members of the company make way for new ones. -/
theorem change_members {t : Relation MembersOnce} {old new : List EmployeeGroupMember}
    (hrows : t.rows = old ++ new) (hold : old ⊆ c.members.rows)
    (hothers : others (·.companyId = company) old = others (·.companyId = company) c.members.rows)
    (hnew : ∀ m ∈ new, m.companyId = company ∧ c.groupCompany m.groupId = some m.companyId ∧
      dir.employeeCompany m.employeeId = some m.companyId) :
    c.Change dir company { c with members := t } := by
  refine ⟨{ h with members := fun m hm => ?_ },
    { KeepsOthers.refl company c with members := ?_ }, id, id⟩
  · have hm : m ∈ t.rows := hm
    rw [hrows, List.mem_append] at hm
    rcases hm with hm | hm
    · exact h.members m (hold hm)
    · exact (hnew m hm).2
  · show others _ t.rows = _
    rw [hrows, others_append fun m hm => (hnew m hm).1, hothers]

theorem change_targets {t : Relation fun rows : List PolicyGroupTarget => rows.Nodup}
    {old new : List PolicyGroupTarget} (hrows : t.rows = old ++ new) (hold : old ⊆ c.targets.rows)
    (hothers : others (c.OwnsTarget company) old = others (c.OwnsTarget company) c.targets.rows)
    (hnew : ∀ x ∈ new, c.OwnsTarget company x) :
    c.Change dir company { c with targets := t } := by
  refine ⟨{ h with targets := fun x hx => ?_ },
    { KeepsOthers.refl company c with targets := ?_ }, id, id⟩
  · have hx : x ∈ t.rows := hx
    rw [hrows, List.mem_append] at hx
    rcases hx with hx | hx
    · exact h.targets x (hold hx)
    · exact ⟨company, hnew x hx⟩
  · show others (c.OwnsTarget company) t.rows = _
    rw [hrows, others_append hnew, hothers]

/-- Versions are only added. -/
theorem change_versions {t : Relation VersionsOnce} {v : PolicyVersion}
    (hrows : t.rows = c.versions.rows ++ [v]) (hv : c.policyCompany v.policyId = some company) :
    c.Change dir company { c with versions := t } := by
  refine ⟨{ h with versions := ?_ }, { KeepsOthers.refl company c with versions := ?_ }, id, id⟩
  · intro w hw
    have hw : w ∈ t.rows := hw
    rw [hrows, List.mem_append, List.mem_singleton] at hw
    rcases hw with hw | rfl
    · exact h.versions w hw
    · exact ⟨company, hv⟩
  · show others _ t.rows = _
    rw [hrows]
    refine others_append fun w hw => ?_
    rw [List.mem_singleton.mp hw]
    exact hv

/-- Assignments name their company. -/
theorem change_assignments {t : Relation AssignmentsApart}
    (href : ∀ a ∈ t.rows, a.Within dir c a.companyId)
    (hothers : others (·.companyId = company) t.rows
      = others (·.companyId = company) c.assignments.rows) :
    c.Change dir company { c with assignments := t } :=
  ⟨{ h with assignments := href }, { KeepsOthers.refl company c with assignments := hothers }, id,
    id⟩

theorem change_holidays
    {t : Relation fun rows : List Holiday => (rows.map fun h => (h.companyId, h.date)).Nodup}
    (hothers : others (·.companyId = company) t.rows
      = others (·.companyId = company) c.holidays.rows) :
    c.Change dir company { c with holidays := t } :=
  ⟨{ h with }, { KeepsOthers.refl company c with holidays := hothers }, id, id⟩

/-- Categories are only added. -/
theorem change_categories
    {t : Relation (NamedOnce TimeOffCategory.id TimeOffCategory.companyId TimeOffCategory.name)}
    {category : TimeOffCategory} (hrows : t.rows = c.categories.rows ++ [category])
    (hcategory : category.companyId = company) :
    c.Change dir company { c with categories := t } := by
  have hgrows : ∀ {id m}, c.categoryCompany id = some m →
      ({ c with categories := t } : Catalog).categoryCompany id = some m := by
    intro id m hid
    show ownerOf _ _ t.rows id = some m
    rw [hrows]
    exact ownerOf_append hid
  refine ⟨{ h with policies := ?_, assignments := ?_ },
    { KeepsOthers.refl company c with categories := ?_ }, id, hgrows⟩
  · exact fun p hp => hgrows (h.policies p hp)
  · exact fun a ha => (h.assignments a ha).imp_right hgrows
  · show others _ t.rows = _
    rw [hrows]
    exact others_append fun r hr => List.mem_singleton.mp hr ▸ hcategory

/-- Groups are added, or dropped when nothing points at them any more. -/
theorem change_groups
    {t : Relation (NamedOnce EmployeeGroup.id EmployeeGroup.companyId EmployeeGroup.name)}
    (hkeeps : ∀ {id},
      (∃ m ∈ c.members.rows, m.groupId = id) ∨ (∃ x ∈ c.targets.rows, x.groupId = id) →
      ∀ {m}, c.groupCompany id = some m →
        ({ c with groups := t } : Catalog).groupCompany id = some m)
    (hothers : others (·.companyId = company) t.rows
      = others (·.companyId = company) c.groups.rows) :
    c.Change dir company { c with groups := t } := by
  have htargets : ∀ x ∈ c.targets.rows, ∀ m, c.OwnsTarget m x →
      ({ c with groups := t } : Catalog).OwnsTarget m x := by
    intro x hx m hm
    exact ⟨hm.1, hkeeps (Or.inr ⟨x, hx, rfl⟩) hm.2⟩
  refine ⟨{ h with members := ?_, targets := ?_ },
    { KeepsOthers.refl company c with groups := hothers, targets := ?_ }, id, id⟩
  · exact fun m hm => (h.members m hm).imp_left (hkeeps (Or.inl ⟨m, hm, rfl⟩))
  · exact fun x hx => (h.targets x hx).imp fun m => htargets x hx m
  · refine others_congr fun x hx => ⟨fun hown => ?_, htargets x hx company⟩
    exact h.ownsTarget_of_policy hx hown.1

/-- Policies are added, or changed without moving to another company. -/
theorem change_policies
    {t : Relation (NamedOnce Policy.id Policy.companyId Policy.name)}
    (hgrows : ∀ {id m}, c.policyCompany id = some m →
      ({ c with policies := t } : Catalog).policyCompany id = some m)
    (href : ∀ p ∈ t.rows, c.categoryCompany p.categoryId = some p.companyId)
    (hothers : others (·.companyId = company) t.rows
      = others (·.companyId = company) c.policies.rows) :
    c.Change dir company { c with policies := t } := by
  -- a policy that is pointed at has a company already
  have hsame : ∀ {id m}, c.policyCompany id = some m →
      (({ c with policies := t } : Catalog).policyCompany id = some company ↔
        c.policyCompany id = some company) := by
    intro id m hid
    rw [hgrows hid, hid]
  refine ⟨{ h with policies := href, targets := ?_, versions := ?_, assignments := ?_ },
    { KeepsOthers.refl company c with policies := hothers, targets := ?_, versions := ?_ },
    hgrows, id⟩
  · exact fun x hx => (h.targets x hx).imp fun m hm => hm.imp_left hgrows
  · exact fun v hv => (h.versions v hv).imp fun m hm => hgrows hm
  · exact fun a ha => (h.assignments a ha).imp_left fun hw => hw.imp_left hgrows
  · refine others_congr fun x hx => ?_
    obtain ⟨m, hm, -⟩ := h.targets x hx
    exact and_congr_left fun _ => hsame hm
  · refine others_congr fun v hv => ?_
    obtain ⟨m, hm⟩ := h.versions v hv
    exact hsame hm

end tables

end Catalog

/-! ## The whole database

The same for the tables that jobs and requests write: rows refer to employees,
policies and versions of their own company. -/

namespace Db

/-- Every row refers to policies, categories, groups and employees of its own
company. -/
structure References (dir : Directory) (db : Db) : Prop where
  catalog : db.catalog.References dir
  ledger : ∀ e ∈ db.ledger.rows, e.account.Within dir db.catalog e.companyId
  requests : ∀ r ∈ db.requests.rows, r.account.Within dir db.catalog r.companyId ∧
    db.catalog.categoryCompany r.categoryId = some r.companyId
  snapshots : ∀ s ∈ db.snapshots.rows, ∃ company, s.account.Within dir db.catalog company

/-- The rows of other companies are the same in both states. -/
structure KeepsOthers (company : String) (db db' : Db) : Prop where
  catalog : db.catalog.KeepsOthers company db'.catalog
  ledger : others (·.companyId = company) db'.ledger.rows
    = others (·.companyId = company) db.ledger.rows
  requests : others (·.companyId = company) db'.requests.rows
    = others (·.companyId = company) db.requests.rows
  snapshots : others (fun s => db'.catalog.policyCompany s.account.policyId = some company)
      db'.snapshots.rows
    = others (fun s => db.catalog.policyCompany s.account.policyId = some company)
      db.snapshots.rows
  jobRuns : others (·.companyId = company) db'.jobRuns
    = others (·.companyId = company) db.jobRuns

variable {dir : Directory} {company : String} {db db' db'' : Db}

theorem KeepsOthers.refl (company : String) (db : Db) : db.KeepsOthers company db :=
  ⟨.refl company db.catalog, rfl, rfl, rfl, rfl⟩

theorem KeepsOthers.trans (h : db.KeepsOthers company db') (h' : db'.KeepsOthers company db'') :
    db.KeepsOthers company db'' where
  catalog := h.catalog.trans h'.catalog
  ledger := h'.ledger.trans h.ledger
  requests := h'.requests.trans h.requests
  snapshots := h'.snapshots.trans h.snapshots
  jobRuns := h'.jobRuns.trans h.jobRuns

theorem References.empty : References dir .empty :=
  ⟨.empty, fun _ h => absurd h List.not_mem_nil, fun _ h => absurd h List.not_mem_nil,
    fun _ h => absurd h List.not_mem_nil⟩

/-- What an operation for a company comes to. -/
structure Change (dir : Directory) (company : String) (db db' : Db) : Prop where
  references : db'.References dir
  others : db.KeepsOthers company db'

theorem Change.refl (h : db.References dir) : db.Change dir company db :=
  ⟨h, .refl company db⟩

theorem Change.trans (h : db.Change dir company db') (h' : db'.Change dir company db'') :
    db.Change dir company db'' :=
  ⟨h'.references, h.others.trans h'.others⟩

section writes

variable (h : db.References dir)

include h

/-- A change of the catalog, seen from the whole database. -/
theorem change_catalog {c : Catalog} (hc : db.catalog.Change dir company c) :
    db.Change dir company { db with catalog := c } := by
  refine ⟨⟨hc.references, ?_, ?_, ?_⟩,
    { KeepsOthers.refl company db with catalog := hc.others, snapshots := ?_ }⟩
  · exact fun e he => hc.within (h.ledger e he)
  · exact fun r hr => (h.requests r hr).imp hc.within hc.categoryCompany
  · exact fun s hs => (h.snapshots s hs).imp fun m => hc.within
  · refine others_congr fun s hs => ?_
    obtain ⟨m, hm, -⟩ := h.snapshots s hs
    show c.policyCompany _ = _ ↔ _
    rw [hc.policyCompany hm, hm]

/-- Snapshots are owned through the policy of their account. -/
theorem change_snapshots {t : Table Account BalanceSnapshot BalanceSnapshot.account}
    (href : ∀ s ∈ t.rows, ∃ company, s.account.Within dir db.catalog company)
    (hothers : others (fun s => db.catalog.policyCompany s.account.policyId = some company) t.rows
      = others (fun s => db.catalog.policyCompany s.account.policyId = some company)
        db.snapshots.rows) :
    db.Change dir company { db with snapshots := t } :=
  ⟨{ h with snapshots := href }, { KeepsOthers.refl company db with snapshots := hothers }⟩

/-- A request refers to its account and its category. -/
theorem change_requests {t : Table Uuid TimeOffRequest TimeOffRequest.id}
    (href : ∀ r ∈ t.rows, r.account.Within dir db.catalog r.companyId ∧
      db.catalog.categoryCompany r.categoryId = some r.companyId)
    (hothers : others (·.companyId = company) t.rows
      = others (·.companyId = company) db.requests.rows) :
    db.Change dir company { db with requests := t } :=
  ⟨{ h with requests := href }, { KeepsOthers.refl company db with requests := hothers }⟩

/-- The audit row of a job is its company's. -/
theorem change_recordRun {run : JobRun} (hrun : run.companyId = company) :
    db.Change dir company (db.recordRun run) := by
  refine ⟨{ h with }, { KeepsOthers.refl company db with jobRuns := ?_ }⟩
  exact others_append fun r hr => List.mem_singleton.mp hr ▸ hrun

theorem change_insertSnapshot {s : BalanceSnapshot} (hs : s.account.Within dir db.catalog company) :
    db.Change dir company { db with snapshots := db.snapshots.insertNew s } := by
  refine change_snapshots h (fun x hx => ?_) (Table.others_insertNew hs.1)
  rcases Table.mem_insertNew hx with hx | ⟨rfl, -⟩
  · exact h.snapshots x hx
  · exact ⟨company, hs⟩

theorem change_modifySnapshot {a : Account} {f : BalanceSnapshot → BalanceSnapshot}
    {hf : ∀ s, (f s).account = s.account} (ha : a.Within dir db.catalog company) :
    db.Change dir company { db with snapshots := db.snapshots.modify a f hf } := by
  refine change_snapshots h (fun x hx => ?_) (Table.others_modify ?_ ?_)
  · obtain ⟨s, hs, rfl⟩ := Table.mem_modify.mp hx
    split
    · rw [hf s]
      exact h.snapshots s hs
    · exact h.snapshots s hs
  · rintro s - rfl
    exact ha.1
  · intro s hs
    rw [hf s]
    exact hs

theorem change_ensureSnapshot {a : Account} (ha : a.Within dir db.catalog company) :
    db.Change dir company (db.ensureSnapshot a) := change_insertSnapshot h ha

theorem change_setHold {a : Account} {hold : Int} (ha : a.Within dir db.catalog company) :
    db.Change dir company (Stmt.setHold db a hold) := change_modifySnapshot h ha

/-- The balance of a snapshot is set, on a new row if need be. -/
theorem change_upsertBalance {a : Account} {balance : Int} (ha : a.Within dir db.catalog company) :
    db.Change dir company (Stmt.upsertBalance db a balance) := by
  have hrow : db.Change dir company
      { db with snapshots := db.snapshots.insertNew ⟨a, balance, 0⟩ } := change_insertSnapshot h ha
  exact hrow.trans (change_modifySnapshot hrow.references ha)

theorem change_insertRequest {r : TimeOffRequest} (hcompany : r.companyId = company)
    (hr : r.account.Within dir db.catalog company)
    (hcategory : db.catalog.categoryCompany r.categoryId = some company) :
    db.Change dir company { db with requests := db.requests.insertNew r } := by
  refine change_requests h (fun x hx => ?_) (Table.others_insertNew hcompany)
  rcases Table.mem_insertNew hx with hx | ⟨rfl, -⟩
  · exact h.requests x hx
  · rw [hcompany]
    exact ⟨hr, hcategory⟩

/-- An update keeps what a request refers to. -/
theorem change_setRequest {r : TimeOffRequest} {u : RequestUpdate} (hr : r ∈ db.requests.rows)
    (hcompany : r.companyId = company) : db.Change dir company (Stmt.setRequest db r.id u) := by
  refine change_requests h (fun x hx => ?_) (Table.others_modify ?_ ?_)
  · obtain ⟨s, hs, rfl⟩ := Table.mem_modify.mp hx
    have href := h.requests s hs
    split
    · exact href
    · exact href
  · intro s hs hid
    rw [Table.eq_of_key hs hr hid]
    exact hcompany
  · exact fun s hs => hs

/-- An entry is written with the snapshot of its account. -/
theorem change_post {e : LedgerEntry} (hcompany : e.companyId = company)
    (he : e.account.Within dir db.catalog company) : db.Change dir company (db.post e) := by
  simp only [post]
  split
  · exact .refl h
  · have hentry : db.Change dir company { db with ledger := db.ledger.insertNew e } := by
      refine ⟨{ h with ledger := fun x hx => ?_ },
        { KeepsOthers.refl company db with ledger := Table.others_insertNew hcompany }⟩
      rcases Table.mem_insertNew hx with hx | ⟨rfl, -⟩
      · exact h.ledger x hx
      · rw [hcompany]
        exact he
    exact hentry.trans (change_upsertBalance hentry.references he)

end writes

theorem change_posts {es : List LedgerEntry} (h : db.References dir)
    (hes : ∀ e ∈ es, e.companyId = company ∧ e.account.Within dir db.catalog company) :
    db.Change dir company (db.posts es) := by
  induction es generalizing db with
  | nil => exact .refl h
  | cons e es ih =>
    obtain ⟨hcompany, he⟩ := hes e (List.mem_cons_self ..)
    have hfirst := change_post h hcompany he
    refine hfirst.trans (ih hfirst.references fun f hf => ?_)
    rw [post_catalog]
    exact hes f (List.mem_cons_of_mem _ hf)

end Db

end TimeOff
