import TimeOff.Accrual.JobRuns
import TimeOff.Isolation.Reads

/-!
# Whose calls a reader notices

An answer depends on the reader's company, and of the ledger, the requests and
the snapshots on the rows about those whose data the reader sees (`Db.Alike`,
`Read.run_alike`). A call of another company leaves that part as it is, and
between two people who are no admins so does a call of another employee
(`alike_of_serve`). So calls of people without influence on a reader change no
answer (**`reads_isolated`**).

This is noninterference with `Alike` as the equivalence of what is seen, and it
is proved in two halves that meet in it:

- what a route computes from two alike states is the same. This goes up from
  what is looked up in the catalog (`Alike.versionsOf`,
  `Alike.assignmentForCategory`) over balances and requests to the response
  models (`policyOut_alike`, `preview_alike`) and to the routes;
- a call without influence leads to an alike state. The rows it writes are of
  another company (`Alike.of_keepsOthers`) or about another employee
  (`Alike.of_keepsEmployee`).

Both are equivalences, so a whole list of calls is as good as none.
-/

namespace TimeOff

open Gregorian

/-! ## The catalog that a company reads

Two catalogs are alike to a company if its own rows are the same. Rows refer to
rows of their own company, so what is looked up from one of its rows is the same
as well. -/

namespace Catalog

/-- The assignment of an employee is with a policy of its company. -/
theorem References.of_assignmentForCategory {dir : Directory} {c : Catalog}
    {company employeeId : String} {categoryId : Uuid} {onDate : Date} {a : PolicyAssignment}
    (hc : c.References dir)
    (h : c.assignmentForCategory company employeeId categoryId onDate = .ok (some a)) :
    a.companyId = company ∧ c.policyCompany a.policyId = some company := by
  obtain ⟨hmem, hfilter⟩ := List.mem_filter.mp (mem_of_scalarOneOrNone h)
  obtain ⟨rfl, -⟩ := of_decide_eq_true hfilter
  exact ⟨rfl, (hc.assignments a hmem).1.1⟩

/-- The company's part of both catalogs is the same. -/
structure Alike (company : String) (c d : Catalog) : Prop where
  categories : d.categories.rows.filter (·.companyId = company)
    = c.categories.rows.filter (·.companyId = company)
  groups : d.groups.rows.filter (·.companyId = company)
    = c.groups.rows.filter (·.companyId = company)
  members : ∀ {id}, c.groupCompany id = some company →
    d.members.rows.filter (·.groupId = id) = c.members.rows.filter (·.groupId = id)
  policies : d.policies.rows.filter (·.companyId = company)
    = c.policies.rows.filter (·.companyId = company)
  targets : ∀ {id}, c.policyCompany id = some company →
    d.targets.rows.filter (·.policyId = id) = c.targets.rows.filter (·.policyId = id)
  versions : ∀ {id}, c.policyCompany id = some company →
    d.versions.rows.filter (·.policyId = id) = c.versions.rows.filter (·.policyId = id)
  assignments : d.assignments.rows.filter (·.companyId = company)
    = c.assignments.rows.filter (·.companyId = company)
  holidays : d.holidays.rows.filter (·.companyId = company)
    = c.holidays.rows.filter (·.companyId = company)

namespace Alike

variable {dir : Directory} {company employeeId : String} {c d e : Catalog} {id : Uuid} {day : Date}

/-- A group or policy is the company's in both catalogs or in neither. -/
theorem groupCompany (h : c.Alike company d) :
    d.groupCompany id = some company ↔ c.groupCompany id = some company :=
  ownerOf_owned c.groups.holds.1 d.groups.holds.1 h.groups

theorem policyCompany (h : c.Alike company d) :
    d.policyCompany id = some company ↔ c.policyCompany id = some company :=
  ownerOf_owned c.policies.holds.1 d.policies.holds.1 h.policies

theorem refl (company : String) (c : Catalog) : c.Alike company c :=
  ⟨rfl, rfl, fun _ => rfl, rfl, fun _ => rfl, fun _ => rfl, rfl, rfl⟩

theorem trans (h : c.Alike company d) (h' : d.Alike company e) : c.Alike company e where
  categories := h'.categories.trans h.categories
  groups := h'.groups.trans h.groups
  members hid := (h'.members (h.groupCompany.mpr hid)).trans (h.members hid)
  policies := h'.policies.trans h.policies
  targets hid := (h'.targets (h.policyCompany.mpr hid)).trans (h.targets hid)
  versions hid := (h'.versions (h.policyCompany.mpr hid)).trans (h.versions hid)
  assignments := h'.assignments.trans h.assignments
  holidays := h'.holidays.trans h.holidays

/-- Nothing of the company is among the rows of another. -/
theorem of_keepsOthers {other : String} (hc : c.References dir) (hd : d.References dir)
    (hother : company ≠ other) (h : c.KeepsOthers other d) : c.Alike company d := by
  have hown : ∀ {m : String}, m = company → ¬ m = other := fun hm => hm ▸ hother
  have hgroups : d.groups.rows.filter (·.companyId = company)
      = c.groups.rows.filter (·.companyId = company) :=
    filter_of_filter (fun _ _ => hown) (fun _ _ => hown) h.groups
  have hpolicies : d.policies.rows.filter (·.companyId = company)
      = c.policies.rows.filter (·.companyId = company) :=
    filter_of_filter (fun _ _ => hown) (fun _ _ => hown) h.policies
  have hgroup : ∀ {id}, c.groupCompany id = some company → d.groupCompany id = some company :=
    (ownerOf_owned c.groups.holds.1 d.groups.holds.1 hgroups).mpr
  have hpolicy : ∀ {id}, c.policyCompany id = some company → d.policyCompany id = some company :=
    (ownerOf_owned c.policies.holds.1 d.policies.holds.1 hpolicies).mpr
  have hapart : ∀ {o : Option String}, o = some company → ¬ o = some other :=
    fun ho hsame => hother (Option.some.inj (ho.symm.trans hsame))
  exact {
    categories := filter_of_filter (fun _ _ => hown) (fun _ _ => hown) h.categories
    groups := hgroups
    members hid := filter_of_filter
      (fun m hm hgroupId => hown (hc.member_company hm (hgroupId ▸ hid)))
      (fun m hm hgroupId => hown (hd.member_company hm (hgroupId ▸ hgroup hid))) h.members
    policies := hpolicies
    targets hid := filter_of_filter
      (fun t _ hpolicyId => mt And.left (hapart (hpolicyId ▸ hid)))
      (fun t _ hpolicyId => mt And.left (hapart (hpolicyId ▸ hpolicy hid))) h.targets
    versions hid := filter_of_filter
      (fun v _ hpolicyId => hapart (hpolicyId ▸ hid))
      (fun v _ hpolicyId => hapart (hpolicyId ▸ hpolicy hid)) h.versions
    assignments := filter_of_filter (fun _ _ => hown) (fun _ _ => hown) h.assignments
    holidays := filter_of_filter (fun _ _ => hown) (fun _ _ => hown) h.holidays }

/-! ### What is looked up in it -/

variable (h : c.Alike company d)

include h

/-- Whatever is looked up for the company is found in both catalogs. -/
theorem categoriesByName : d.categoriesByName company = c.categoriesByName company :=
  congrArg (List.insertionSort _) h.categories

theorem versionsOf (hid : c.policyCompany id = some company) :
    d.versionsOf id = c.versionsOf id :=
  congrArg (List.insertionSort _) (h.versions hid)

theorem latestVersion (hid : c.policyCompany id = some company) :
    d.latestVersion id = c.latestVersion id :=
  congrArg (List.maxOn? _) (h.versions hid)

theorem versionEffectiveOn (hid : c.policyCompany id = some company) :
    d.versionEffectiveOn id day = c.versionEffectiveOn id day :=
  congrArg (List.maxOn? _)
    (filter_of_filter (fun _ _ hv => hv.1) (fun _ _ hv => hv.1) (h.versions hid))

theorem assignmentForCategory :
    d.assignmentForCategory company employeeId id day
      = c.assignmentForCategory company employeeId id day :=
  congrArg scalarOneOrNone
    (filter_of_filter (fun _ _ ha => ha.1) (fun _ _ ha => ha.1) h.assignments)

theorem holidayDates {start finish : Date} :
    d.holidayDates company start finish = c.holidayDates company start finish :=
  congrArg (List.map _)
    (filter_of_filter (fun _ _ hh => hh.1) (fun _ _ hh => hh.1) h.holidays)

theorem policy (hid : c.policyCompany id = some company) : d.policy id = c.policy id :=
  find?_owned c.policies.holds.1 d.policies.holds.1 h.policies hid

end Alike

end Catalog

/-! ## What a reader sees of the database

A reader sees what is about employees of the company, all of them or only the
reader: the rows that a route lets through. -/

/-- The reader may see what is stored about the employee. -/
def Directory.Sees (dir : Directory) (reader : Employee) (employeeId : String) : Prop :=
  dir.employeeCompany employeeId = some reader.companyId ∧
    (reader.isAdmin = true ∨ reader.id = employeeId)

instance (dir : Directory) (reader : Employee) : DecidablePred (dir.Sees reader) :=
  fun _ => inferInstanceAs (Decidable (_ ∧ _))

namespace Db

/-- What the reader sees of both states is the same. -/
structure Alike (dir : Directory) (reader : Employee) (db db' : Db) : Prop where
  catalog : db.catalog.Alike reader.companyId db'.catalog
  ledger : (db'.ledger.rows.filter fun e => dir.Sees reader e.employeeId)
    = db.ledger.rows.filter fun e => dir.Sees reader e.employeeId
  requests : (db'.requests.rows.filter fun r => dir.Sees reader r.employeeId)
    = db.requests.rows.filter fun r => dir.Sees reader r.employeeId
  snapshots : (db'.snapshots.rows.filter fun s => dir.Sees reader s.account.employeeId)
    = db.snapshots.rows.filter fun s => dir.Sees reader s.account.employeeId
  jobRuns : db'.jobRuns.filter (·.companyId = reader.companyId)
    = db.jobRuns.filter (·.companyId = reader.companyId)

namespace Alike

variable {dir : Directory} {reader : Employee} {db db' db'' : Db} {a : Account}

theorem refl (dir : Directory) (reader : Employee) (db : Db) : db.Alike dir reader db :=
  ⟨.refl reader.companyId db.catalog, rfl, rfl, rfl, rfl⟩

theorem trans (h : db.Alike dir reader db') (h' : db'.Alike dir reader db'') :
    db.Alike dir reader db'' where
  catalog := h.catalog.trans h'.catalog
  ledger := h'.ledger.trans h.ledger
  requests := h'.requests.trans h.requests
  snapshots := h'.snapshots.trans h.snapshots
  jobRuns := h'.jobRuns.trans h.jobRuns

/-- Nothing that a reader sees is stored for another company. -/
theorem of_keepsOthers {other : String} (href : db.References dir) (href' : db'.References dir)
    (hother : reader.companyId ≠ other) (h : db.KeepsOthers other db') :
    db.Alike dir reader db' := by
  have hown : ∀ {m : String}, m = reader.companyId → ¬ m = other := fun hm => hm ▸ hother
  have hseen : ∀ {id m}, dir.employeeCompany id = some m → dir.Sees reader id → ¬ m = other :=
    fun hm hsees => hown (Option.some.inj (hm.symm.trans hsees.1))
  have hsnapshot : ∀ {db : Db}, db.References dir → ∀ s ∈ db.snapshots.rows,
      dir.Sees reader s.account.employeeId →
        ¬ db.catalog.policyCompany s.account.policyId = some other := by
    intro db href s hs hsees hsame
    obtain ⟨m, hpolicy, hemployee⟩ := href.snapshots s hs
    exact hseen hemployee hsees (Option.some.inj (hpolicy.symm.trans hsame))
  exact {
    catalog := .of_keepsOthers href.catalog href'.catalog hother h.catalog
    ledger := filter_of_filter (fun e he => hseen (href.ledger e he).2)
      (fun e he => hseen (href'.ledger e he).2) h.ledger
    requests := filter_of_filter (fun r hr => hseen (href.requests r hr).1.2)
      (fun r hr => hseen (href'.requests r hr).1.2) h.requests
    snapshots := filter_of_filter (hsnapshot href) (hsnapshot href') h.snapshots
    jobRuns := filter_of_filter (fun _ _ => hown) (fun _ _ => hown) h.jobRuns }

/-- Whoever is no admin sees what is stored about themselves. -/
theorem of_keepsEmployee (hreader : ¬ reader.isAdmin = true) (hcatalog : db'.catalog = db.catalog)
    (hjobs : db'.jobRuns = db.jobRuns) (h : db.KeepsEmployee reader.id db') :
    db.Alike dir reader db' := by
  have hself : ∀ {id}, dir.Sees reader id → ¬ id ≠ reader.id :=
    fun hsees => not_not.mpr (hsees.2.resolve_left hreader).symm
  exact {
    catalog := hcatalog ▸ .refl reader.companyId db.catalog
    ledger := filter_of_filter (fun _ _ => hself) (fun _ _ => hself) h.ledger
    requests := filter_of_filter (fun _ _ => hself) (fun _ _ => hself) h.requests
    snapshots := filter_of_filter (fun _ _ => hself) (fun _ _ => hself) h.snapshots
    jobRuns := by rw [hjobs] }

/-! ### What is looked up in it -/

/-- A check of ownership comes out the same. -/
theorem requireOwn (h : db.Alike dir reader db') {policyId : Uuid} {detail : String} :
    Api.requireOwn (db'.catalog.policyCompany policyId) reader detail
      = Api.requireOwn (db.catalog.policyCompany policyId) reader detail :=
  ite_congr (propext h.catalog.policyCompany) (fun _ => rfl) fun _ => rfl

/-- Of the people whose data the reader sees, balances are the same. -/
theorem balance (h : db.Alike dir reader db') (ha : dir.Sees reader a.employeeId)
    (asOf : Option Date) : db'.ledger.balance a asOf = db.ledger.balance a asOf := by
  have hseen : ∀ {e : LedgerEntry}, (e.account = a ∧ ∀ day ∈ asOf, e.effectiveDate ≤ day) →
      dir.Sees reader e.employeeId := by
    rintro e ⟨rfl, -⟩
    exact ha
  simp only [Ledger.balance, Table.sum_ite]
  rw [filter_of_filter (fun _ _ => hseen) (fun _ _ => hseen) h.ledger]

theorem find?_snapshots (h : db.Alike dir reader db') (ha : dir.Sees reader a.employeeId) :
    db'.snapshots.find? a = db.snapshots.find? a := by
  have hseen : ∀ {s : BalanceSnapshot}, s.account = a → dir.Sees reader s.account.employeeId :=
    fun hs => hs ▸ ha
  exact find?_of_filter (fun _ _ => hseen) (fun _ _ => hseen) h.snapshots

theorem mem_requests (h : db.Alike dir reader db') {r : TimeOffRequest}
    (hr : dir.Sees reader r.employeeId) : r ∈ db'.requests.rows ↔ r ∈ db.requests.rows := by
  have hseen : ∀ {db : Db}, r ∈ db.requests.rows ↔
      r ∈ db.requests.rows.filter fun r => dir.Sees reader r.employeeId := by
    intro db
    rw [List.mem_filter, and_iff_left (decide_eq_true hr)]
  rw [hseen, h.requests, ← hseen]

/-- So what is left to take is the same. -/
theorem available (h : db.Alike dir reader db') (ha : dir.Sees reader a.employeeId) :
    db'.available a = db.available a := by
  unfold Db.available Db.hold
  rw [h.balance ha, h.find?_snapshots ha]

end Alike

end Db

/-! ## Answers

One lemma for what each response is built from, then one case for each route. -/

namespace Api

section catalog

variable {dir : Directory} {company : String} {c d : Catalog}

/-- The same rows are shown for a policy, a group or an assignment of the company. -/
theorem policyOut_alike (hc : c.References dir) (h : c.Alike company d) {policy : Policy}
    (hpolicy : policy ∈ c.policies.rows) (hcompany : policy.companyId = company) :
    policyOut d policy = policyOut c policy := by
  have hid : c.policyCompany policy.id = some company :=
    hcompany ▸ ownerOf_of_mem c.policies.holds.1 hpolicy
  have hcategory : (d.categories.rows.find? fun r => r.id = policy.categoryId)
      = c.categories.rows.find? fun r => r.id = policy.categoryId :=
    find?_owned c.categories.holds.1 d.categories.holds.1 h.categories
      (hcompany ▸ hc.policies policy hpolicy)
  have htargets : groupTargets d policy.id = groupTargets c policy.id := h.targets hid
  have hgroups : ((groupTargets c policy.id).mapM fun t =>
        needed (d.groups.rows.find? fun g => g.id = t.groupId))
      = (groupTargets c policy.id).mapM fun t =>
        needed (c.groups.rows.find? fun g => g.id = t.groupId) := by
    refine Except.mapM_congr fun t ht => congrArg needed ?_
    obtain ⟨ht, hpolicyId⟩ := List.mem_filter.mp ht
    have hown : c.policyCompany t.policyId = some company :=
      (of_decide_eq_true hpolicyId : t.policyId = policy.id) ▸ hid
    exact find?_owned c.groups.holds.1 d.groups.holds.1 h.groups
      (hc.ownsTarget_of_policy ht hown).2
  unfold policyOut
  rw [hcategory, h.latestVersion hid, htargets, h.versionsOf hid, hgroups]

theorem groupOut_alike (h : c.Alike company d) {group : EmployeeGroup}
    (hgroup : group ∈ c.groups.rows) (hcompany : group.companyId = company) :
    groupOut dir d group = groupOut dir c group := by
  unfold groupOut
  rw [h.members (hcompany ▸ ownerOf_of_mem c.groups.holds.1 hgroup)]

theorem assignmentOut_alike (hc : c.References dir) (h : c.Alike company d)
    {a : PolicyAssignment} (ha : a ∈ c.assignments.rows) (hcompany : a.companyId = company) :
    assignmentOut dir d a = assignmentOut dir c a := by
  unfold assignmentOut
  rw [h.policy (hcompany ▸ (hc.assignments a ha).1.1)]

end catalog

section requests

variable {dir : Directory} {reader : Employee} {db db' : Db} {fields : RequestFields}

/-- What is asked for is charged alike. -/
theorem resolve_alike (href : db.References dir) (h : db.Alike dir reader db')
    (hsees : dir.Sees reader fields.employeeId) :
    db'.books.resolve dir fields = db.books.resolve dir fields := by
  unfold Books.resolve
  refine Except.bind_congr_ok fun employee hemployee => ?_
  have hcompany : employee.companyId = reader.companyId := by
    have hown := hsees.1
    simp only [Directory.employee] at hemployee
    simp only [Directory.employeeCompany] at hown
    split at hemployee
    · next hfind =>
      cases hemployee
      rw [hfind] at hown
      exact Option.some.inj hown
    · cases hemployee
  have hoverlap : (∃ r ∈ db'.books.requests.rows, r.employeeId = fields.employeeId ∧
        r.status.LIVE ∧ r.Overlaps fields.startDate fields.endDate) ↔
      ∃ r ∈ db.books.requests.rows, r.employeeId = fields.employeeId ∧
        r.status.LIVE ∧ r.Overlaps fields.startDate fields.endDate := by
    refine exists_congr fun r => and_congr_left fun hr => h.mem_requests ?_
    rw [hr.1]
    exact hsees
  rw [hcompany]
  simp only [Db.books_catalog, h.catalog.assignmentForCategory, hoverlap]
  refine Except.bind_congr_ok fun found hfound => ?_
  cases hcovers : found.filter fun a => ¬ ∃ last ∈ a.effectiveTo, last < fields.endDate with
  | none => rfl
  | some a =>
  obtain ⟨rfl, -⟩ := Option.filter_eq_some_iff.mp hcovers
  obtain ⟨hown, hpolicy⟩ := href.catalog.of_assignmentForCategory hfound
  dsimp only
  rw [h.catalog.versionEffectiveOn hpolicy, hown, h.catalog.holidayDates]

/-- Who passes the check sees what is stored about the employee. -/
theorem sees_of_requireSelfOrAdmin {employeeId : String} {u : Unit}
    (h : requireSelfOrAdmin dir employeeId reader = .ok u) : dir.Sees reader employeeId :=
  ⟨requireSelfOrAdmin_ok h, requireSelfOrAdmin_self h⟩

/-- A preview shows the same balance and days, or fails alike. -/
theorem preview_alike (href : db.References dir) (hexact : SnapshotsExact db)
    (hexact' : SnapshotsExact db') (h : db.Alike dir reader db') {β : Type} (f : PreviewOut → β) :
    (Tx.run (preview dir reader fields) db').map (fun result => f result.1)
      = (Tx.run (preview dir reader fields) db).map fun result => f result.1 := by
  rw [run_preview hexact, run_preview hexact']
  cases hself : requireSelfOrAdmin dir fields.employeeId reader with
  | error e => rfl
  | ok u =>
  have hsees := sees_of_requireSelfOrAdmin hself
  dsimp only [bind, Except.bind]
  rw [resolve_alike href h hsees]
  cases db.books.resolve dir fields with
  | error e => rfl
  | ok r =>
  have havailable : db'.available (r.account fields.employeeId)
      = db.available (r.account fields.employeeId) := h.available hsees
  have hfits : db'.books.fits fields.employeeId r = db.books.fits fields.employeeId r := by
    have hbooks : db'.books.available (r.account fields.employeeId)
        = db.books.available (r.account fields.employeeId) := havailable
    unfold Books.fits
    rw [hbooks]
  dsimp only
  rw [hfits, havailable]
  cases db.books.fits fields.employeeId r with
  | error e => rfl
  | ok u => rfl

end requests

section run

variable {dir : Directory} {reader : Employee} {db db' : Db}

/-- Requests are listed for admins, and for everyone their own. -/
theorem requestScope_ok {employeeId scope : Option String}
    (h : requestScope dir reader employeeId = .ok scope) :
    reader.isAdmin = true ∨ scope = some reader.id := by
  simp only [requestScope] at h
  split at h
  · obtain ⟨_, hself, h⟩ := Except.bind_eq_ok.mp h
    cases h
    exact (requireSelfOrAdmin_self hself).imp_right fun hid => congrArg some hid.symm
  · by_cases hadmin : reader.isAdmin = true
    · exact Or.inl hadmin
    · rw [if_neg hadmin] at h
      cases h
      exact Or.inr rfl

/-- Balances listed for an employee whom the reader sees. -/
theorem listBalances_alike (href : db.References dir) (h : db.Alike dir reader db')
    {employeeId : String} (hsees : dir.Sees reader employeeId) (onDate : Date) :
    BalanceService.listBalances dir db' reader.companyId employeeId onDate
      = BalanceService.listBalances dir db reader.companyId employeeId onDate := by
  unfold BalanceService.listBalances
  rw [h.catalog.categoriesByName]
  refine bind_congr fun employee => Except.mapM_congr fun category _ => ?_
  unfold BalanceService.categoryRow
  rw [h.catalog.assignmentForCategory]
  refine Except.bind_congr_ok fun found hfound => ?_
  cases found with
  | none => rfl
  | some a =>
  obtain ⟨-, hpolicy⟩ := href.catalog.of_assignmentForCategory hfound
  dsimp only [BalanceService.policyRow]
  rw [h.catalog.versionEffectiveOn hpolicy, h.catalog.policy hpolicy,
    h.balance (a := ⟨employeeId, a.policyId⟩) hsees,
    h.find?_snapshots (a := ⟨employeeId, a.policyId⟩) hsees]

/-- What a reader is answered depends on what they see. -/
theorem Read.run_alike (href : db.References dir) (hexact : SnapshotsExact db)
    (href' : db'.References dir) (hexact' : SnapshotsExact db') (h : db.Alike dir reader db')
    (read : Read) :
    read.run dir reader db' = read.run dir reader db := by
  cases read with
  | listEmployees => rfl
  | getEmployee employeeId => rfl
  | categories =>
    dsimp only [Read.run]
    rw [h.catalog.categoriesByName]
  | policies =>
    dsimp only [Read.run]
    rw [h.catalog.policies]
    refine congrArg (· >>= _) (Except.mapM_congr fun policy hpolicy => ?_)
    obtain ⟨hpolicy, hcompany⟩ := List.mem_filter.mp ((List.mem_insertionSort _).mp hpolicy)
    exact policyOut_alike href.catalog h.catalog hpolicy (of_decide_eq_true hcompany)
  | versions policyId =>
    dsimp only [Read.run]
    -- a policy that the reader may look up is of the reader's company
    rw [h.requireOwn]
    refine Except.bind_congr_ok fun _ hpolicy => ?_
    rw [h.catalog.versionsOf (own_of_requireOwn hpolicy)]
  | listAssignments policyId =>
    dsimp only [Read.run]
    rw [h.requireOwn,
      filter_of_filter (fun _ _ ha => ha.1) (fun _ _ ha => ha.1) h.catalog.assignments]
    refine bind_congr fun _ => bind_congr fun _ => congrArg (· >>= _) ?_
    refine Except.mapM_congr fun a ha => ?_
    obtain ⟨ha, hown⟩ := List.mem_filter.mp ((List.mem_insertionSort _).mp ha)
    exact assignmentOut_alike href.catalog h.catalog ha (of_decide_eq_true hown).1
  | employeeAssignments employeeId =>
    dsimp only [Read.run, assignmentsForEmployee]
    rw [filter_of_filter (fun _ _ ha => ha.1) (fun _ _ ha => ha.1) h.catalog.assignments]
    refine bind_congr fun _ => congrArg (· >>= _) (Except.mapM_congr fun a ha => ?_)
    obtain ⟨ha, hown⟩ := List.mem_filter.mp ((List.mem_insertionSort _).mp ha)
    exact assignmentOut_alike href.catalog h.catalog ha (of_decide_eq_true hown).1
  | listGroups =>
    dsimp only [Read.run]
    rw [h.catalog.groups]
    refine bind_congr fun _ => congrArg (· >>= _) (Except.mapM_congr fun group hgroup => ?_)
    obtain ⟨hgroup, hcompany⟩ := List.mem_filter.mp ((List.mem_insertionSort _).mp hgroup)
    exact groupOut_alike h.catalog hgroup (of_decide_eq_true hcompany)
  | balances employeeId onDate =>
    refine Except.bind_congr_ok fun _ hself => ?_
    rw [listBalances_alike href h (sees_of_requireSelfOrAdmin hself)]
  | ledger employeeId policyId =>
    refine Except.bind_congr_ok fun _ hself => ?_
    -- what is read is about an employee that the reader sees
    have hsees := sees_of_requireSelfOrAdmin hself
    have hseen : ∀ {e : LedgerEntry}, (e.companyId = reader.companyId ∧
        e.employeeId = employeeId ∧ ∀ id ∈ policyId, e.policyId = id) →
          dir.Sees reader e.employeeId := by
      rintro e ⟨-, rfl, -⟩
      exact hsees
    rw [filter_of_filter (fun _ _ => hseen) (fun _ _ => hseen) h.ledger]
  | listRequests employeeId status =>
    refine Except.bind_congr_ok fun scope hscope => ?_
    -- all requests, or those of one employee: the reader sees every one listed
    have hseen : ∀ {db : Db}, db.References dir → ∀ r ∈ db.requests.rows,
        (r.companyId = reader.companyId ∧ (∀ id ∈ scope, r.employeeId = id) ∧
          ∀ s ∈ status, r.status = s) → dir.Sees reader r.employeeId := by
      rintro db href r hr ⟨hcompany, hid, -⟩
      refine ⟨hcompany ▸ (href.requests r hr).1.2, ?_⟩
      exact (requestScope_ok hscope).imp_right fun hown => (hid reader.id hown).symm
    dsimp only
    rw [filter_of_filter (hseen href) (hseen href') h.requests]
  | preview fields => exact preview_alike href hexact hexact' h Answer.preview
  | listHolidays year =>
    dsimp only [Read.run, HolidayService.listForYear]
    rw [filter_of_filter (fun _ _ hh => hh.1) (fun _ _ hh => hh.1) h.catalog.holidays]
  | jobRuns limit =>
    dsimp only [Read.run]
    rw [h.jobRuns]

end run

end Api

/-! ## Calls

A call by somebody without influence keeps the rows that the reader sees, so a
whole sequence of them does. -/

/-- The actor and the reader are of one company, and one of them is an admin, or
they are the same. -/
def Directory.MayInfluence (dir : Directory) (actorId readerId : String) : Prop :=
  ∃ actor ∈ dir.employees.find? actorId, ∃ reader ∈ dir.employees.find? readerId,
    actor.companyId = reader.companyId ∧
      (actor.isAdmin = true ∨ reader.isAdmin = true ∨ actor.id = reader.id)

instance (dir : Directory) (actorId readerId : String) :
    Decidable (dir.MayInfluence actorId readerId) :=
  inferInstanceAs (Decidable (∃ actor ∈ dir.employees.find? actorId,
    ∃ reader ∈ dir.employees.find? readerId, _))

/-- Who is no admin writes neither to the catalog nor to the job runs. -/
theorem catalog_jobRuns_of_step {dir : Directory} {db db' : Db} {actor : Employee} {op : Op}
    (hadmin : ¬ actor.isAdmin = true) (hby : op.By actor) (h : Step dir db op db') :
    db'.catalog = db.catalog ∧ db'.jobRuns = db.jobRuns := by
  cases op with
  | catalog | runScheduled | onPayrollProcessed | rollover => exact absurd hby hadmin
  | submit =>
    cases effect_of_step h with
    | submit => exact ⟨Db.afterSubmit_catalog, Db.afterSubmit_jobRuns⟩
  | decide =>
    cases effect_of_step h with
    | decide => exact ⟨Db.afterDecide_catalog, Db.afterDecide_jobRuns⟩
  | cancel =>
    cases effect_of_step h with
    | cancel => exact ⟨Db.afterCancel_catalog, Db.afterCancel_jobRuns⟩

namespace Api

variable {dir : Directory} {s s' : State}

/-- What calls lead to is reachable by operations. -/
theorem reachable_of_serve {call : Call} (hs : Reachable dir s.db)
    (h : s.serve dir call = .ok s') : Reachable dir s'.db := by
  obtain ⟨actor, -, hroute⟩ := Except.bind_eq_ok.mp h
  obtain ⟨l, hl, -⟩ := run_of_route hroute
  exact hs.run hl

theorem reachable_calls (dir : Directory) (calls : List Call) :
    Reachable dir (calls.foldl (State.after dir) .empty).db :=
  (attempts_rel (I := fun s : State => Reachable dir s.db) (R := fun _ _ => True)
    (fun _ => trivial) (fun _ _ => trivial)
    (fun _ _ _ _ hs hserve => ⟨reachable_of_serve hs hserve, trivial⟩) ⟨[], .nil⟩).1

/-- A call without influence on the reader. -/
theorem alike_of_serve {call : Call} {reader : Employee} {readerId : String}
    (href : s.db.References dir) (hreader : dir.employees.find? readerId = some reader)
    (hnot : ¬ dir.MayInfluence call.actorId readerId) (h : s.serve dir call = .ok s') :
    s.db.Alike dir reader s'.db := by
  obtain ⟨actor, hfound, hchange⟩ := change_of_call href h
  obtain ⟨actor', hactor, hroute⟩ := Except.bind_eq_ok.mp h
  obtain rfl : actor = actor' := Option.some.inj (hfound.symm.trans (getActor_ok hactor))
  by_cases hcompany : actor.companyId = reader.companyId
  · -- a colleague, and neither of the two is an admin
    have hcolleague : ¬ (actor.isAdmin = true ∨ reader.isAdmin = true ∨ actor.id = reader.id) :=
      fun hinfluence => hnot ⟨actor, hfound, reader, hreader, hcompany, hinfluence⟩
    rw [not_or, not_or] at hcolleague
    obtain ⟨hadmin, hreaderAdmin, hother⟩ := hcolleague
    obtain ⟨l, hl, hby⟩ := run_of_route hroute
    refine (hl.restrict (P := fun op => op.By actor) hby).invariant
      (I := fun db => s.db.Alike dir reader db) (.refl dir reader s.db)
      fun halike hstep => halike.trans ?_
    obtain ⟨hcatalog, hjobs⟩ := catalog_jobRuns_of_step hadmin hstep.2 hstep.1
    exact .of_keepsEmployee hreaderAdmin hcatalog hjobs
      (keepsEmployee_of_step hadmin hother hstep.2 hstep.1)
  · exact .of_keepsOthers href hchange.references (Ne.symm hcompany) hchange.others

/-- **Reads are isolated**: after any calls, further calls of people without
influence on a reader change no answer the reader gets. -/
theorem reads_isolated {dir : Directory} {before calls : List Call} {readerId : String}
    (h : ∀ call ∈ calls, ¬ dir.MayInfluence call.actorId readerId) (read : Read) :
    ((before ++ calls).foldl (State.after dir) .empty).read dir readerId read
      = (before.foldl (State.after dir) .empty).read dir readerId read := by
  refine Except.bind_congr_ok fun reader hreader => ?_
  have hreader := getActor_ok hreader
  have hbefore : Reachable dir (before.foldl (State.after dir) .empty).db :=
    reachable_calls dir before
  rw [List.foldl_append]
  obtain ⟨hafter, halike⟩ := attempts_rel (I := fun s : State => Reachable dir s.db)
    (R := fun s t => s.db.Alike dir reader t.db) (fun s => .refl dir reader s.db)
    (fun h h' => h.trans h')
    (fun call hcall s t hs hserve => ⟨reachable_of_serve hs hserve,
      alike_of_serve hs.references hreader (h call hcall) hserve⟩) hbefore
  exact Read.run_alike hbefore.references hbefore.snapshotsExact hafter.references
    hafter.snapshotsExact halike read

end Api

namespace Demo

/-- Ada and Grace have accrued under the policy of their group. -/
def groupAccrued : List Api.Call :=
  [ callBy "adm_lindsey" (.createCategory categoryId "Vacation"),
    callBy "adm_lindsey" (.createGroup groupId "Engineers" ["emp_ada", "emp_grace"]),
    callBy "adm_lindsey" (.createPolicy policyId versionId "Core vacation" categoryId
      { effectiveFrom := ofYmd 2026 1 1, kind := .ACCRUAL }
      [{ method := .TIME, amount := 10, unit := .DAY, frequency := some .YEARLY
         accruesAt := some .START_OF_PERIOD, id := ruleId }] false [groupId]
      fun _ employeeId => if employeeId = "emp_ada" then assignmentId else nextAssignmentId),
    callBy "adm_lindsey" (.scheduled (ofYmd 2027 1 1)) ]

/-- Grace asks for a day off. -/
def graceAsks : Api.Call :=
  callBy "emp_grace" (.submit requestId "Time off"
    { employeeId := "emp_grace", categoryId, startDate := ofYmd 2027 3 1
      endDate := ofYmd 2027 3 1 })

end Demo

/-- Grace asks for a day, and Ada's balances are answered as before. -/
theorem request_unnoticed :
    (∃ r ∈ ((Demo.groupAccrued ++ [Demo.graceAsks]).foldl
      (Api.State.after Demo.directory) .empty).db.requests.rows, r.employeeId = "emp_grace") ∧
    ((Demo.groupAccrued ++ [Demo.graceAsks]).foldl (Api.State.after Demo.directory) .empty).read
        Demo.directory "emp_ada" (.balances "emp_ada" (ofYmd 2027 3 1))
      = (Demo.groupAccrued.foldl (Api.State.after Demo.directory) .empty).read
        Demo.directory "emp_ada" (.balances "emp_ada" (ofYmd 2027 3 1)) := by
  refine ⟨by decide +kernel, Api.reads_isolated (fun call hcall => ?_) _⟩
  revert call
  decide

end TimeOff
