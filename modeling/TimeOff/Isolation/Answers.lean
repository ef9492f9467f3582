import TimeOff.Eligibility.Listing
import TimeOff.Eligibility.Settled
import TimeOff.Isolation.Influence
import TimeOff.Requests.Expansion

/-!
# Every read gets an answer

A route that reads answers or refuses, in every state: the rows an answer refers
to exist, every policy has a version (`Reachable.versioned`), and nothing is
found twice. Only the listing of balances can fail on its own data, and it does
exactly when an assignment begins before its policy: **`reads_answered_iff`**.

What may go wrong in a route is of two kinds. A `Refusal` is a response with a
status that the route chose (401, 403, 404 or 422); anything else is an error
that nobody handles, such as a missing row or a version that is `None`.
`Refuses` says of a computation that it never fails in the second way, and it is
closed under the ways in which routes are put together: `refuses_ite` for a
check, `refuses_bind` for one step after another, `refuses_pass` for a pass over
a list.

With these, one proof per route goes down its body (`Read.refuses`). At every
row that the body looks up, the references between tables provide it:
`policyOut_ok`, `groupOut_ok`, `assignmentOut_ok` and `requestOut_ok` say that
each response model can be filled in from what is stored.
-/

namespace TimeOff

open Gregorian

/-! ## Every policy has a version

A policy is created with its first version, and none is ever deleted. -/

/-- Every policy has a version. -/
def Catalog.Versioned (c : Catalog) : Prop :=
  ∀ p ∈ c.policies.rows, ∃ v ∈ c.versions.rows, v.policyId = p.id

namespace Catalog

variable {c d : Catalog}

/-- Versions that stay are still there, and no policy without one has come. -/
theorem Versioned.of_ids (h : c.Versioned) (hversions : c.versions.rows ⊆ d.versions.rows)
    (hids : ∀ q ∈ d.policies.rows, ∃ p ∈ c.policies.rows, p.id = q.id) : d.Versioned := by
  intro q hq
  obtain ⟨p, hp, hid⟩ := hids q hq
  obtain ⟨v, hv, hpolicy⟩ := h p hp
  exact ⟨v, hversions hv, hpolicy.trans hid⟩

/-- So the latest version of a policy exists. -/
theorem Versioned.latestVersion (h : c.Versioned) {p : Policy} (hp : p ∈ c.policies.rows) :
    ∃ v, c.latestVersion p.id = some v := by
  obtain ⟨v, hv, hpolicy⟩ := h p hp
  have hmem : v ∈ c.versions.rows.filter fun v => v.policyId = p.id :=
    List.mem_filter.mpr ⟨hv, decide_eq_true hpolicy⟩
  exact Option.isSome_iff_exists.mp
    (List.isSome_maxOn?_of_mem (f := fun v : PolicyVersion => v.versionNo) hmem)

end Catalog

/-- A policy is created with its first version, and no operation drops a version. -/
theorem CatalogOp.versioned {dir : Directory} {op : CatalogOp} {c d : Catalog}
    (h : op.run dir c = .ok d) (hc : c.Versioned) : d.Versioned := by
  have hversions : c.versions.rows ⊆ d.versions.rows := (CatalogOp.grows h).subset
  -- most operations leave the policies alone, and versions are only added
  have hsame (hpolicies : d.policies = c.policies) : d.Versioned :=
    hc.of_ids hversions fun q hq => ⟨q, hpolicies ▸ hq, rfl⟩
  cases op with
  | createCategory | addHoliday | ensureYear =>
    obtain ⟨_, -, h⟩ := Except.bind_eq_ok.mp h
    cases h
    exact hsame rfl
  | createPolicy companyId policyId versionId name categoryId fields rules =>
    obtain ⟨-, policies, hpolicies, h⟩ := PolicyService.create_ok h
    obtain ⟨v, versions, rfl, hrows, hpolicy, -⟩ := PolicyService.addVersion_ok h
    intro p hp
    have hp : p ∈ policies.rows := hp
    rw [hpolicies, List.mem_append, List.mem_singleton] at hp
    show ∃ w ∈ versions.rows, w.policyId = p.id
    rw [hrows]
    -- the new policy has the version that is written with it
    rcases hp with hp | rfl
    · obtain ⟨w, hw, hid⟩ := hc p hp
      exact ⟨w, List.mem_append_left _ hw, hid⟩
    · exact ⟨v, List.mem_append_right _ (List.mem_singleton.mpr rfl), hpolicy⟩
  | updatePolicy policyId versionId name fields rules =>
    obtain ⟨policy, -, h⟩ := Except.bind_eq_ok.mp h
    obtain ⟨_, -, h⟩ := Except.bind_eq_ok.mp h
    split at h
    · cases h
    split at h
    · cases h
    obtain ⟨policies, hpolicies, h⟩ := Except.bind_eq_ok.mp h
    obtain ⟨v, versions, rfl, -⟩ := PolicyService.addVersion_ok h
    -- an update may rename the policy, but keeps its id
    refine hc.of_ids hversions fun q hq => ?_
    have hq : q ∈ policies.rows := hq
    rw [rows_of_constrained hpolicies] at hq
    obtain ⟨p, hp, rfl⟩ := List.mem_map.mp hq
    refine ⟨p, hp, ?_⟩
    cases name with
    | none => rfl
    | some name =>
      dsimp only
      split <;> rfl
  | assign policyId effectiveFrom employees =>
    obtain ⟨policy, -, h⟩ := Except.bind_eq_ok.mp h
    obtain ⟨-, assignments, rfl, -⟩ := AssignmentService.assign_ok h
    exact hsame rfl
  | endAssignment assignmentId effectiveTo =>
    obtain ⟨a, -, h⟩ := Except.bind_eq_ok.mp h
    obtain ⟨assignments, rfl, -⟩ := AssignmentService.endAssignment_ok h
    exact hsame rfl
  | createGroup companyId id name employeeIds =>
    obtain ⟨groups, members, rfl⟩ := GroupService.create_eq h
    exact hsame rfl
  | setPolicyAudience policyId allEmployees groupIds effectiveFrom newId =>
    obtain ⟨policy, -, h⟩ := Except.bind_eq_ok.mp h
    obtain ⟨-, policies, targets, hpolicies, -, h⟩ := GroupService.setPolicyAudience_ok h
    obtain ⟨-, assignments, rfl, -⟩ := GroupService.reconcilePolicy_ok h
    refine hc.of_ids hversions fun q hq => ?_
    have hq : q ∈ policies.rows := hq
    rw [hpolicies] at hq
    obtain ⟨p, hp, rfl⟩ := List.mem_map.mp hq
    refine ⟨p, hp, ?_⟩
    split <;> rfl
  | replaceMembers groupId employeeIds effectiveFrom newId =>
    obtain ⟨group, -, h⟩ := Except.bind_eq_ok.mp h
    obtain ⟨members, assignments, rfl⟩ := GroupService.replaceMembers_eq h
    exact hsame rfl
  | setEmployeeGroup companyId employeeId groupId effectiveFrom newId =>
    obtain ⟨members, policies, -, -, -, h⟩ := GroupService.setEmployeeGroup_ok h
    obtain ⟨assignments, rfl⟩ := GroupService.reconcilePolicies_ok h
    exact hsame rfl
  | removeGroup groupId effectiveFrom newId =>
    obtain ⟨group, -, h⟩ := Except.bind_eq_ok.mp h
    obtain ⟨members, -, h⟩ := Except.bind_eq_ok.mp h
    obtain ⟨c', hreconciled, h⟩ := Except.bind_eq_ok.mp h
    obtain ⟨assignments, rfl⟩ := GroupService.reconcilePolicies_ok hreconciled
    obtain ⟨_, -, h⟩ := Except.bind_eq_ok.mp h
    obtain ⟨_, -, h⟩ := Except.bind_eq_ok.mp h
    cases h
    exact hsame rfl

/-- In every reachable state every policy has a version. -/
theorem Reachable.versioned {dir : Directory} {db : Db} (h : Reachable dir db) :
    db.catalog.Versioned := by
  obtain ⟨l, hl⟩ := h
  refine hl.invariant (I := fun db => db.catalog.Versioned)
    (fun p hp => absurd hp List.not_mem_nil) fun {db op db'} hc hstep => ?_
  have heffect := effect_of_step hstep
  cases op with
  | catalog op =>
    cases heffect with
    | catalog hrun => exact CatalogOp.versioned hrun hc
  | _ =>
    rw [heffect.catalog_eq not_false]
    exact hc

/-! ## Refusals

A computation refuses if its failures are refusals; the checks of the routes do,
and what is bound to a check does if the rest does. -/

/-- What a route refuses with a status: 401 for an actor nobody knows, 403 or 404
for what is not for the actor, 422 for a value out of range, and 422 again for a
request that cannot be made (a `RequestError`). -/
def Error.Refusal : Error → Prop
  | .http 401 _ | .http 403 _ | .http 404 _ | .http 422 _ | .request _ => True
  | _ => False

/-- A computation that fails refuses. -/
def Refuses {α : Type} (x : Except Error α) : Prop := ∀ e, x = .error e → e.Refusal

section refuses

variable {α β γ : Type} {x y : Except Error α} {f : α → Except Error β} {p : Prop} [Decidable p]

/-- An answer is no failure. -/
theorem refuses_ok (a : α) : Refuses (.ok a) := by
  intro e he
  cases he

/-- A refusal is what it says. -/
theorem refuses_error {e : Error} (h : e.Refusal) : Refuses (.error e : Except Error α) := by
  intro e' he
  cases he
  exact h

/-- Both branches of a check. -/
theorem refuses_ite (hx : Refuses x) (hy : Refuses y) : Refuses (if p then x else y) := by
  split
  · exact hx
  · exact hy

/-- One step after another, the second with what the first has answered. -/
theorem refuses_bind (h : Refuses x) (hf : ∀ a, x = .ok a → Refuses (f a)) :
    Refuses (x >>= f) := by
  cases hx : x with
  | error e =>
    intro e' he
    cases he
    exact h e hx
  | ok a => exact hf a hx

/-- A pass succeeds where every element does. -/
theorem refuses_pass {xs : List α} {g : List β → Except Error γ}
    (h : ∀ a ∈ xs, ∃ b, f a = .ok b) (hg : ∀ bs, Refuses (g bs)) : Refuses (xs.mapM f >>= g) := by
  obtain ⟨bs, hbs⟩ := Except.exists_mapM_ok h
  rw [hbs]
  exact hg bs

end refuses

namespace Api

section checks

variable {dir : Directory} {actor : Employee}

/-- The checks of the routes refuse with 401, 403 and 404. -/
theorem refuses_getActor (actorId : String) : Refuses (getActor dir actorId) := by
  unfold getActor
  split
  · exact refuses_ok _
  · exact refuses_error trivial

theorem refuses_requireAdmin : Refuses (requireAdmin actor) :=
  refuses_ite (refuses_ok ()) (refuses_error trivial)

theorem refuses_requireOwn {owner : Option String} {detail : String} :
    Refuses (requireOwn owner actor detail) :=
  refuses_ite (refuses_ok ()) (refuses_error trivial)

theorem refuses_requireSelfOrAdmin {employeeId : String} :
    Refuses (requireSelfOrAdmin dir employeeId actor) := by
  unfold requireSelfOrAdmin
  split
  · exact refuses_error trivial
  · exact refuses_ite (refuses_error trivial)
      (refuses_ite (refuses_error trivial) (refuses_ok ()))

theorem refuses_requestScope (employeeId : Option String) :
    Refuses (requestScope dir actor employeeId) := by
  unfold requestScope
  split
  · exact refuses_bind refuses_requireSelfOrAdmin fun _ _ => refuses_ok _
  · exact refuses_ite (refuses_ok _) (refuses_ok _)

end checks

/-! ## What an answer refers to

The rows that a response looks up without a guard are there, because references
are kept. -/

section found

variable {dir : Directory} {c : Catalog} {db : Db} {company : String}

/-- An employee with a company is in the directory. -/
theorem employee_of_company {employeeId : String}
    (h : dir.employeeCompany employeeId = some company) :
    ∃ employee, dir.employee employeeId = .ok employee := by
  obtain ⟨employee, hfind, -⟩ := Option.map_eq_some_iff.mp h
  refine ⟨employee, ?_⟩
  simp only [Directory.employee]
  rw [hfind]

/-- A row with an owner is there to be read. -/
theorem needed_owned {ρ : Type} {id : ρ → Uuid} {owner : ρ → String} {rows : List ρ} {k : Uuid}
    (h : ownerOf id owner rows k = some company) :
    ∃ r, needed (rows.find? fun r => id r = k) = .ok r := by
  obtain ⟨r, hr, -⟩ := Option.map_eq_some_iff.mp h
  exact ⟨r, congrArg needed hr⟩

/-- A policy is shown with its latest version, its category and its targets. -/
theorem policyOut_ok (hc : c.References dir) (hversions : c.Versioned) {policy : Policy}
    (hpolicy : policy ∈ c.policies.rows) : ∃ out, policyOut c policy = .ok out := by
  obtain ⟨category, hcategory⟩ := needed_owned (hc.policies policy hpolicy)
  obtain ⟨current, hcurrent⟩ := hversions.latestVersion hpolicy
  obtain ⟨groups, hgroups⟩ : ∃ groups, (groupTargets c policy.id).mapM (fun t =>
      needed (c.groups.rows.find? fun g => g.id = t.groupId)) = .ok groups :=
    Except.exists_mapM_ok fun t ht => by
      obtain ⟨_, -, hgroup⟩ := hc.targets t (List.mem_of_mem_filter ht)
      exact needed_owned hgroup
  unfold policyOut
  rw [hcategory, hcurrent, hgroups]
  exact ⟨_, rfl⟩

/-- A group is shown with its members, who are in the directory. -/
theorem groupOut_ok (hc : c.References dir) (group : EmployeeGroup) :
    ∃ out, groupOut dir c group = .ok out := by
  obtain ⟨members, hmembers⟩ : ∃ members, (c.members.rows.filter fun m =>
      m.groupId = group.id).mapM (fun m => dir.employee m.employeeId) = .ok members :=
    Except.exists_mapM_ok fun m hm =>
      employee_of_company (hc.members m (List.mem_of_mem_filter hm)).2
  unfold groupOut
  rw [hmembers]
  exact ⟨_, rfl⟩

/-- An assignment is shown with its employee. -/
theorem assignmentOut_ok (hc : c.References dir) {a : PolicyAssignment}
    (ha : a ∈ c.assignments.rows) : ∃ out, assignmentOut dir c a = .ok out := by
  obtain ⟨⟨hpolicy, hemployee⟩, -⟩ := hc.assignments a ha
  obtain ⟨employee, hemployee⟩ := employee_of_company hemployee
  obtain ⟨policy, hpolicy⟩ := needed_owned hpolicy
  unfold assignmentOut Catalog.policy
  rw [hemployee, hpolicy]
  exact ⟨_, rfl⟩

/-- A request is shown with its employee. -/
theorem requestOut_ok (href : db.References dir) {r : TimeOffRequest}
    (hr : r ∈ db.requests.rows) : ∃ out, requestOut dir r = .ok out := by
  obtain ⟨employee, hemployee⟩ : ∃ employee, dir.employee r.employeeId = .ok employee :=
    employee_of_company (href.requests r hr).1.2
  unfold requestOut
  rw [hemployee]
  exact ⟨_, rfl⟩

end found

/-! ## Every route

Down the body of each route, by the closure of `Refuses`. The converse is one
read: the listing of an assignment's own first day fails unless a version is in
force. -/

section routes

variable {dir : Directory} {reader : Employee} {db : Db} {fields : RequestFields}

/-- Resolving a request refuses what it cannot charge. -/
theorem refuses_resolve {company : String}
    (hemployee : dir.employeeCompany fields.employeeId = some company) :
    Refuses (db.books.resolve dir fields) := by
  obtain ⟨employee, hfound⟩ := employee_of_company hemployee
  unfold Books.resolve
  refine refuses_bind (hfound ▸ refuses_ok employee) fun employee _ => ?_
  obtain ⟨found, hfound⟩ := db.catalog.assignmentForCategory_ok employee.companyId
    fields.employeeId fields.categoryId fields.startDate
  refine refuses_bind (hfound ▸ refuses_ok found) fun found _ => ?_
  split
  · exact refuses_error trivial
  split
  · exact refuses_error trivial
  refine refuses_bind ?_ fun days _ => refuses_ite (refuses_error trivial) (refuses_ok _)
  unfold requestDays
  exact refuses_ite (refuses_error trivial) (refuses_ite (refuses_error trivial)
    (refuses_ite (refuses_error trivial) (refuses_ite (refuses_error trivial) (refuses_ok _))))

/-- A preview refuses as the submission would. -/
theorem refuses_preview (hexact : SnapshotsExact db) :
    Refuses (Tx.run (preview dir reader fields) db) := by
  rw [run_preview hexact]
  refine refuses_bind refuses_requireSelfOrAdmin fun _ hself => ?_
  refine refuses_bind (refuses_resolve (requireSelfOrAdmin_ok hself)) fun r _ => ?_
  exact refuses_bind (refuses_ite (refuses_error trivial) (refuses_ok ())) fun _ _ => refuses_ok _

/-- The years that `date` has; and the expansion of a request moves past its last
day. -/
def Read.InCalendar : Read → Prop
  | .listHolidays year => 1 ≤ year ∧ year ≤ 9999
  | .preview fields => fields.endDate < Calendar.dateMax
  | _ => True

/-- Every route that reads answers or refuses, one case for each. -/
theorem Read.refuses (hreach : Reachable dir db) (hstarts : db.catalog.StartsInForce)
    {read : Read} (hread : read.InCalendar) : Refuses (read.run dir reader db) := by
  have href := hreach.references
  have hsorted {ρ : Type} {rows : List ρ} {p : ρ → Bool} {le : ρ → ρ → Prop} [DecidableRel le]
      {r : ρ} (hr : r ∈ (rows.filter p).insertionSort le) : r ∈ rows :=
    List.mem_of_mem_filter ((List.mem_insertionSort _).mp hr)
  cases read with
  | listEmployees => exact refuses_ok _
  | getEmployee employeeId =>
    dsimp only [Read.run]
    split
    · exact refuses_error trivial
    · exact refuses_ite (refuses_error trivial) (refuses_ok _)
  | categories => exact refuses_ok _
  | policies =>
    exact refuses_pass (fun p hp => policyOut_ok href.catalog hreach.versioned (hsorted hp))
      fun _ => refuses_ok _
  | versions policyId => exact refuses_bind refuses_requireOwn fun _ _ => refuses_ok _
  | listAssignments policyId =>
    refine refuses_bind refuses_requireAdmin fun _ _ => ?_
    refine refuses_bind refuses_requireOwn fun _ _ => ?_
    exact refuses_pass (fun a ha => assignmentOut_ok href.catalog (hsorted ha))
      fun _ => refuses_ok _
  | employeeAssignments employeeId =>
    refine refuses_bind refuses_requireSelfOrAdmin fun _ _ => ?_
    exact refuses_pass (fun a ha => assignmentOut_ok href.catalog (hsorted ha))
      fun _ => refuses_ok _
  | listGroups =>
    refine refuses_bind refuses_requireAdmin fun _ _ => ?_
    exact refuses_pass (fun group _ => groupOut_ok href.catalog group) fun _ => refuses_ok _
  | balances employeeId onDate =>
    refine refuses_bind refuses_requireSelfOrAdmin fun _ hself => ?_
    obtain ⟨employee, hfind, -⟩ := Option.map_eq_some_iff.mp (requireSelfOrAdmin_ok hself)
    obtain ⟨hemployee, rfl⟩ := Table.find?_eq_some.mp hfind
    obtain ⟨rows, hrows, -⟩ := BalanceService.lists_of_startsInForce href hstarts
      reader.companyId employee hemployee onDate
    exact refuses_bind (hrows ▸ refuses_ok rows) fun _ _ => refuses_ok _
  | ledger employeeId policyId =>
    exact refuses_bind refuses_requireSelfOrAdmin fun _ _ => refuses_ok _
  | listRequests employeeId status =>
    refine refuses_bind (refuses_requestScope employeeId) fun _ _ => ?_
    exact refuses_pass (fun r hr => requestOut_ok href
      (List.mem_of_mem_filter (List.mem_reverse.mp hr))) fun _ => refuses_ok _
  | preview fields =>
    intro e he
    exact refuses_preview hreach.snapshotsExact e (Except.map_eq_error.mp he)
  | listHolidays year =>
    have hyear : 1 ≤ year ∧ year ≤ 9999 := hread
    dsimp only [Read.run]
    rw [if_pos hyear]
    exact refuses_ok _
  | jobRuns limit =>
    exact refuses_bind refuses_requireAdmin fun _ _ =>
      refuses_ite (refuses_ok _) (refuses_error trivial)

/-- The listing of balances fails with no refusal. -/
theorem not_refusal_of_listBalances {companyId employeeId : String} {onDate : Date} {e : Error}
    (h : BalanceService.listBalances dir db companyId employeeId onDate = .error e) :
    ¬ e.Refusal := by
  rcases Except.bind_eq_error.mp h with h | ⟨employee, -, h⟩
  · simp only [Directory.employee] at h
    split at h
    · cases h
    · cases h
      exact not_false
  obtain ⟨category, -, h⟩ := Except.exists_of_mapM_error h
  rcases Except.bind_eq_error.mp h with h | ⟨found, -, h⟩
  · obtain ⟨found, hfound⟩ := db.catalog.assignmentForCategory_ok companyId employeeId category.id
      onDate
    rw [hfound] at h
    cases h
  cases found with
  | none => cases h
  | some a =>
    dsimp only [BalanceService.policyRow] at h
    split at h
    · cases h
    · cases h
      exact not_false

end routes

/-- Whoever reads whatever from the state, is answered or refused. -/
def State.Answers (dir : Directory) (s : State) : Prop :=
  ∀ readerId (read : Read), read.InCalendar → Refuses (s.read dir readerId read)

/-- Balances listed on the day an assignment begins have a version of its policy. -/
theorem inForce_of_listBalances {dir : Directory} {db : Db} (href : db.References dir)
    {a : PolicyAssignment} (ha : a ∈ db.catalog.assignments.rows)
    {rows : List BalanceService.BalanceRow}
    (h : BalanceService.listBalances dir db a.companyId a.employeeId a.effectiveFrom = .ok rows) :
    db.catalog.InForce a.policyId a.effectiveFrom := by
  obtain ⟨⟨hpolicy, -⟩, hcategory⟩ := href.catalog.assignments a ha
  obtain ⟨category, hcat, hid, hcompany⟩ := ownerOf_eq_some hcategory
  obtain ⟨_, -, hrows⟩ := Except.bind_eq_ok.mp h
  have hlisted : category ∈ db.catalog.categoriesByName a.companyId :=
    (List.mem_insertionSort _).mpr (List.mem_filter.mpr ⟨hcat, decide_eq_true hcompany⟩)
  obtain ⟨row, hrow⟩ := Except.exists_of_mapM_ok hrows hlisted
  obtain ⟨found, hfound, hrow⟩ := Except.bind_eq_ok.mp hrow
  have hcovers : a.Covers a.effectiveFrom :=
    ⟨le_rfl, fun last hlast => db.catalog.assignments.holds.ordered a ha last hlast⟩
  rw [hid, Catalog.assignmentForCategory_of_covers ha hcovers] at hfound
  cases hfound
  exact (BalanceService.policyRow_ok_iff hpolicy).mp ⟨row, hrow⟩

/-- Employees read their own balances. -/
theorem read_own_balances {dir : Directory} {s : State} {employee : Employee} {employeeId : String}
    (h : dir.employees.find? employeeId = some employee) (onDate : Date) :
    s.read dir employeeId (.balances employeeId onDate)
      = BalanceService.listBalances dir s.db employee.companyId employeeId onDate >>=
        fun rows => .ok (.balances rows) := by
  obtain ⟨-, hid⟩ := Table.find?_eq_some.mp h
  have hactor : getActor dir employeeId = .ok employee := by
    simp only [getActor]
    rw [h]
  have hself : requireSelfOrAdmin dir employeeId employee = .ok () := by
    simp only [requireSelfOrAdmin]
    rw [h]
    simp [hid]
  simp only [State.read]
  rw [hactor]
  show (requireSelfOrAdmin dir employeeId employee >>= _) = _
  rw [hself]
  rfl

/-- An assignment that begins before its policy fails its employee. -/
theorem startsInForce_of_answers {dir : Directory} {s : State} (href : s.db.References dir)
    (h : s.Answers dir) : s.db.catalog.StartsInForce := by
  intro a ha
  obtain ⟨employee, hfind, hcompany⟩ :=
    Option.map_eq_some_iff.mp (href.catalog.assignments a ha).1.2
  have hanswers := h a.employeeId (.balances a.employeeId a.effectiveFrom) trivial
  rw [read_own_balances hfind, hcompany] at hanswers
  cases hlist : BalanceService.listBalances dir s.db a.companyId a.employeeId a.effectiveFrom with
  | error e =>
    rw [hlist] at hanswers
    exact absurd (hanswers e rfl) (not_refusal_of_listBalances hlist)
  | ok rows => exact inForce_of_listBalances href ha hlist

/-- **Reads are answered**: in every state that calls lead to, everything that
anyone reads is answered or refused with 401, 403, 404 or 422 exactly when every
assignment begins in force. -/
theorem reads_answered_iff {dir : Directory} (calls : List Call) :
    (calls.foldl (State.after dir) .empty).Answers dir ↔
      (calls.foldl (State.after dir) .empty).db.catalog.StartsInForce := by
  have hreach := reachable_calls dir calls
  refine ⟨startsInForce_of_answers hreach.references, fun hstarts readerId read hread => ?_⟩
  exact refuses_bind (refuses_getActor readerId) fun _ _ => Read.refuses hreach hstarts hread

end Api

end TimeOff
