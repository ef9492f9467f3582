import TimeOff.Accrual.Postings
import TimeOff.Eligibility.Moves
import TimeOff.Isolation.Companies

/-!
# Every operation works for one company

`Op.company` is the company whose rows an operation is about: the one it names,
or that of the row it is given. `change_of_step` says that a successful
operation has one, keeps every reference within its company, and leaves the rows
of all other companies alone. So references are kept along every run
(`references_of_run`).

`Change` is transitive, so a service that writes several tables is the
composition of its writes. The module goes through the services in the order in
which they call each other: assignments, then the reconciliation of audiences
that opens and ends them, then groups and policies, then requests, and last the
jobs. Each lemma named `…_change` takes the function apart at its binds, shows
for each write that the row belongs to the company, by the lemma about that
table, and joins the parts.

That the row belongs to the company is where the checks of the source come in:
the groups and employees that a call names are looked up within the company
(`employees_company`, `exists_group_of_length`), a row that a route loads is
compared with the actor's company (`findOr404_ok`, `findRequest_company`), and
everything else is reached through references that already stay within it.
-/

namespace TimeOff

open Gregorian

/-- The policy is stored for a company, and so is its category. -/
def Policy.Within (c : Catalog) (company : String) (policy : Policy) : Prop :=
  policy.companyId = company ∧ c.policyCompany policy.id = some company ∧
    c.categoryCompany policy.categoryId = some company

/-- A stored policy is within the company it names. -/
theorem Catalog.References.policy_within {dir : Directory} {c : Catalog} {policy : Policy}
    (h : c.References dir) (hpolicy : policy ∈ c.policies.rows) :
    policy.Within c policy.companyId :=
  ⟨rfl, ownerOf_of_mem c.policies.holds.1 hpolicy, h.policies policy hpolicy⟩

/-- Policies do not change companies. -/
theorem Catalog.Change.policy_within {dir : Directory} {company m : String} {c d : Catalog}
    {policy : Policy} (h : c.Change dir company d) (hp : policy.Within c m) : policy.Within d m :=
  ⟨hp.1, h.policyCompany hp.2.1, h.categoryCompany hp.2.2⟩

/-! ## Assignments -/

namespace AssignmentService

variable {dir : Directory} {company : String} {policy : Policy} {x : Date} {c d : Catalog}

/-- New assignments are of the policy's company. -/
theorem opened_within (hp : policy.Within c company) {e : String × Uuid}
    (he : ∃ employee, dir.employees.find? e.1 = some employee ∧
      employee.companyId = policy.companyId) :
    (opened policy x e).companyId = company ∧ (opened policy x e).Within dir c company := by
  obtain ⟨rfl, hid, hcategory⟩ := hp
  obtain ⟨employee, hfind, hemployee⟩ := he
  have hknown : dir.employeeCompany e.1 = some policy.companyId := by
    simp [Directory.employeeCompany, hfind, hemployee]
  exact ⟨rfl, ⟨hid, hknown⟩, hcategory⟩

/-- Opening assignments writes rows of the policy's company. -/
theorem assign_change {employees : List (String × Uuid)} (href : c.References dir)
    (hp : policy.Within c company) (h : assign dir policy x employees c = .ok d) :
    c.Change dir company d := by
  obtain ⟨hknown, assignments, rfl, hrows⟩ := assign_ok h
  have hnew : ∀ a ∈ employees.map (opened policy x),
      a.companyId = company ∧ a.Within dir c company := by
    intro a ha
    obtain ⟨e, he, rfl⟩ := List.mem_map.mp ha
    exact opened_within hp (hknown e he)
  refine Catalog.change_assignments href (fun a ha => ?_) ?_
  · rw [hrows, List.mem_append] at ha
    rcases ha with ha | ha
    · exact href.assignments a ha
    · rw [(hnew a ha).1]
      exact (hnew a ha).2
  · rw [hrows]
    exact others_append fun a ha => (hnew a ha).1

/-- Ending one sets its last day. -/
theorem endAssignment_change {a : PolicyAssignment} {effectiveTo : Date}
    (href : c.References dir) (ha : a ∈ c.assignments.rows)
    (h : endAssignment c a effectiveTo = .ok d) : c.Change dir a.companyId d := by
  obtain ⟨assignments, rfl, hrows⟩ := endAssignment_ok h
  refine Catalog.change_assignments href (fun b hb => ?_) ?_
  · rw [hrows] at hb
    obtain ⟨row, hrow, rfl⟩ := List.mem_map.mp hb
    have hwithin := href.assignments row hrow
    split
    · exact hwithin
    · exact hwithin
  · rw [hrows]
    refine others_map (fun row hrow hnot => if_neg fun hid => hnot ?_) fun row _ hown => ?_
    -- the row with the assignment's id is the assignment
    · rw [List.inj_on_of_nodup_map c.assignments.holds.id_unique hrow ha hid]
    · split
      · exact hown
      · exact hown

end AssignmentService

/-! ## Audiences

The four operations write members or targets of one company and reconcile
policies of that company, so the assignments they open are of its employees. -/

namespace GroupService

open AssignmentService

variable {dir : Directory} {company : String} {x : Date} {newId : Uuid → String → Uuid}
  {c d : Catalog}

/-- Reconciling a policy opens and ends assignments with it. -/
theorem reconcilePolicy_change {policy : Policy} (href : c.References dir)
    (hp : policy.Within c company) (h : reconcilePolicy dir x newId policy c = .ok d) :
    c.Change dir company d := by
  obtain ⟨hknown, assignments, rfl, hrows⟩ := reconcilePolicy_ok h
  -- a row of the policy is of the policy's company
  have hof : ∀ a ∈ c.assignments.rows, a.policyId = policy.id → a.companyId = company := by
    intro a ha hid
    have hcompany := (href.assignments a ha).1.1
    rw [show (⟨a.employeeId, a.policyId⟩ : Account).policyId = policy.id from hid, hp.2.1]
      at hcompany
    exact (Option.some.inj hcompany).symm
  have hnew : ∀ a ∈ (missingEmployees c dir policy x).map fun id =>
      opened policy x (id, newId policy.id id),
      a.companyId = company ∧ a.Within dir c company := by
    intro a ha
    obtain ⟨id, hid, rfl⟩ := List.mem_map.mp ha
    exact opened_within hp (hknown id hid)
  refine Catalog.change_assignments href (fun a ha => ?_) ?_
  · rw [hrows, List.mem_append, mem_reconciledRows] at ha
    rcases ha with (⟨ha, -⟩ | ⟨b, hb, -, -, rfl⟩) | ha
    · exact href.assignments a ha
    · exact href.assignments b hb
    · rw [(hnew a ha).1]
      exact (hnew a ha).2
  · rw [hrows, others_append fun a ha => (hnew a ha).1]
    refine others_filterMap (fun a ha hnot => ?_) fun a _ hown b hb => ?_
    · exact if_neg fun hleaving => hnot (hof a ha hleaving.1)
    · simp only [reconciledRow] at hb
      split at hb
      · split at hb
        · cases hb
        · cases hb
          exact hown
      · cases hb
        exact hown

/-- Several policies of the company in turn. -/
theorem reconcilePolicies_change {policies : List Policy} (href : c.References dir)
    (hp : ∀ p ∈ policies, p.Within c company)
    (h : reconcilePolicies dir x newId policies c = .ok d) : c.Change dir company d := by
  simp only [reconcilePolicies] at h
  induction policies generalizing c with
  | nil =>
    cases h
    exact .refl href
  | cons policy rest ih =>
    rw [List.foldlM_cons] at h
    obtain ⟨c', hfirst, h⟩ := Except.bind_eq_ok.mp h
    have hchange := reconcilePolicy_change href (hp policy (List.mem_cons_self ..)) hfirst
    refine hchange.trans (ih hchange.references (fun p hmem => ?_) h)
    exact hchange.policy_within (hp p (List.mem_cons_of_mem _ hmem))

/-- `_employees` lists employees of the company. -/
theorem employees_company {employeeIds ids : List String}
    (h : employees dir company employeeIds = .ok ids) :
    (∀ id, id ∈ ids ↔ id ∈ employeeIds) ∧
      ∀ id ∈ employeeIds, dir.employeeCompany id = some company := by
  simp only [employees] at h
  split at h
  · next hnone =>
    cases h
    refine ⟨fun id => List.mem_eraseDups, fun id hid => ?_⟩
    have hjoins := List.find?_eq_none.mp hnone id (List.mem_eraseDups.mpr hid)
    cases hfind : dir.employees.find? id with
    | none => simp [hfind] at hjoins
    | some employee =>
      simp only [hfind, Option.mem_def, Option.some.injEq, forall_eq', decide_eq_true_eq,
        not_or, not_not] at hjoins
      simp [Directory.employeeCompany, hfind, hjoins.1]
  · split at h
    · cases h
    · cases h

/-- The policies aimed at a group are of its company. -/
theorem within_of_target (href : c.References dir) {p : Policy} (hp : p ∈ c.policies.rows)
    {t : PolicyGroupTarget} (ht : t ∈ c.targets.rows) (hpolicy : t.policyId = p.id)
    (hgroup : c.groupCompany t.groupId = some company) : p.Within c company := by
  have hwithin := href.policy_within hp
  have hsame := (href.ownsTarget_of_group ht hgroup).1
  rw [hpolicy, hwithin.2.1] at hsame
  obtain rfl := Option.some.inj hsame
  exact hwithin

/-- The policies that aim at a group of the company are its own. -/
theorem targetingPolicies_within (href : c.References dir) {groupId : Uuid}
    (hgroup : c.groupCompany groupId = some company) :
    ∀ p ∈ targetingPolicies c groupId, p.Within c company := by
  intro p hp
  obtain ⟨hmem, htarget⟩ := List.mem_filter.mp hp
  obtain ⟨t, ht, hpolicy, rfl⟩ := of_decide_eq_true htarget
  exact within_of_target href hmem ht hpolicy hgroup

/-- When as many groups are found as are asked for, each of them is. -/
theorem exists_group_of_length {groupIds : List Uuid}
    (h : (c.groups.rows.filter fun g =>
      g.companyId = company ∧ g.id ∈ groupIds.eraseDups).length = groupIds.eraseDups.length)
    {groupId : Uuid} (hid : groupId ∈ groupIds.eraseDups) :
    ∃ g, (g ∈ c.groups.rows ∧ g.companyId = company) ∧ g.id = groupId := by
  let found := c.groups.rows.filter fun g => g.companyId = company ∧ g.id ∈ groupIds.eraseDups
  have hnodup : (found.map (·.id)).Nodup :=
    c.groups.holds.1.sublist (List.filter_sublist.map _)
  have hsub : found.map (·.id) ⊆ groupIds.eraseDups := by
    intro id hmem
    obtain ⟨g, hg, rfl⟩ := List.mem_map.mp hmem
    exact (of_decide_eq_true (List.mem_filter.mp hg).2).2
  have hperm := (List.subperm_of_subset hnodup hsub).perm_of_length_le
    (by rw [List.length_map]; exact h.ge)
  obtain ⟨g, hg, hgid⟩ := List.mem_map.mp (hperm.mem_iff.mpr hid)
  obtain ⟨hmem, hg⟩ := List.mem_filter.mp hg
  exact ⟨g, ⟨hmem, (of_decide_eq_true hg).1⟩, hgid⟩

/-- A new group is a row of the company, and so are its members. -/
theorem create_change {id : Uuid} {name : String} {employeeIds : List String}
    (href : c.References dir) (h : create c dir company id name employeeIds = .ok d) :
    c.Change dir company d := by
  obtain ⟨ids, hids, h⟩ := Except.bind_eq_ok.mp h
  obtain ⟨-, -, h⟩ := Except.bind_eq_ok.mp h
  dsimp only at h
  split at h
  · cases h
  split at h
  · cases h
  obtain ⟨groups, hgroups, h⟩ := Except.bind_eq_ok.mp h
  obtain ⟨members, hmembers, h⟩ := Except.bind_eq_ok.mp h
  cases h
  obtain ⟨hmem, hcompany⟩ := employees_company hids
  have hgroups := rows_of_constrained hgroups
  have hadded : c.Change dir company { c with groups := groups } := by
    refine Catalog.change_groups href (fun _ m hm => ?_) ?_
    · show ownerOf _ _ groups.rows _ = some m
      rw [hgroups]
      exact ownerOf_append hm
    · rw [hgroups]
      exact others_append fun g hg => by rw [List.mem_singleton.mp hg]
  have hnew : ∀ m ∈ ids.map (fun employeeId => (⟨id, employeeId, company⟩ : EmployeeGroupMember)),
      m.companyId = company ∧ ({ c with groups := groups } : Catalog).groupCompany m.groupId
          = some m.companyId ∧ dir.employeeCompany m.employeeId = some m.companyId := by
    intro m hm
    obtain ⟨employeeId, he, rfl⟩ := List.mem_map.mp hm
    refine ⟨rfl, ?_, hcompany _ ((hmem _).mp he)⟩
    have hgroup : (⟨id, company, Text.strip name⟩ : EmployeeGroup) ∈ groups.rows := by
      simp [hgroups]
    exact ownerOf_of_mem groups.holds.1 hgroup
  exact hadded.trans (Catalog.change_members hadded.references (rows_of_constrained hmembers)
    (List.Subset.refl _) rfl hnew)

/-- Turning the flag of a policy is a write for its company. -/
theorem flag_change {policy : Policy} {allEmployees : Bool}
    {policies : Relation (NamedOnce Policy.id Policy.companyId Policy.name)}
    (href : c.References dir) (hpolicy : policy ∈ c.policies.rows)
    (hpolicies : policies.rows = c.policies.rows.map fun row =>
      if row.id = policy.id then { row with allEmployees } else row) :
    c.Change dir policy.companyId { c with policies := policies } := by
  refine Catalog.change_policies href (fun {id m} hm => ?_) (fun p hp => ?_) ?_
  · show ownerOf _ _ policies.rows id = some m
    rw [hpolicies, ownerOf_map]
    · exact hm
    · intro p
      split <;> rfl
    · intro p
      split <;> rfl
  · rw [hpolicies] at hp
    obtain ⟨row, hrow, rfl⟩ := List.mem_map.mp hp
    have hcategory := href.policies row hrow
    split
    · exact hcategory
    · exact hcategory
  · rw [hpolicies]
    refine others_map (fun p hp hnot => if_neg fun hid => hnot ?_) fun p _ hown => ?_
    · rw [List.inj_on_of_nodup_map c.policies.holds.1 hp hpolicy hid]
    · split
      · exact hown
      · exact hown

/-- A new audience replaces the targets of the policy and reconciles it. -/
theorem setPolicyAudience_change {policy : Policy} {allEmployees : Bool} {groupIds : List Uuid}
    (href : c.References dir) (hpolicy : policy ∈ c.policies.rows)
    (h : setPolicyAudience c dir policy allEmployees groupIds x newId = .ok d) :
    c.Change dir policy.companyId d := by
  obtain ⟨hall, policies, targets, hpolicies, htargets, h⟩ := setPolicyAudience_ok h
  have hwithin := href.policy_within hpolicy
  have hflag := flag_change href hpolicy hpolicies
  -- its targets
  have haimed : ({ c with policies := policies } : Catalog).Change dir policy.companyId
      { c with policies := policies, targets := targets } := by
    have hpolicy' := hflag.policy_within hwithin
    have hnew : ∀ t ∈ (if allEmployees then [] else
        groupIds.eraseDups.map fun groupId => (⟨policy.id, groupId⟩ : PolicyGroupTarget)),
        ({ c with policies := policies } : Catalog).OwnsTarget policy.companyId t := by
      intro t ht
      split at ht
      · cases ht
      obtain ⟨groupId, hgroupId, rfl⟩ := List.mem_map.mp ht
      refine ⟨hpolicy'.2.1, ?_⟩
      -- as many groups as ids were found, so each id has its group
      obtain ⟨g, hg, rfl⟩ := exists_group_of_length hall hgroupId
      obtain ⟨hg, hcompany⟩ := hg
      rw [← hcompany]
      exact ownerOf_of_mem c.groups.holds.1 hg
    refine Catalog.change_targets hflag.references htargets (List.filter_subset_self _) ?_ hnew
    refine others_filter fun t ht hnot => decide_eq_true fun hid => hnot ?_
    exact hflag.references.ownsTarget_of_policy ht (hid ▸ hpolicy'.2.1)
  have hchange := hflag.trans haimed
  have hwithin' : Policy.Within { c with policies := policies, targets := targets }
      policy.companyId { policy with allEmployees := allEmployees } := hchange.policy_within hwithin
  exact hchange.trans (reconcilePolicy_change hchange.references hwithin' h)

/-- New members replace the old ones, and the policies that aim at the group are
reconciled. -/
theorem replaceMembers_change {group : EmployeeGroup} {employeeIds : List String}
    (href : c.References dir) (hgroup : group ∈ c.groups.rows)
    (h : replaceMembers c dir group employeeIds x newId = .ok d) :
    c.Change dir group.companyId d := by
  obtain ⟨ids, hids, h⟩ := Except.bind_eq_ok.mp h
  obtain ⟨-, -, h⟩ := Except.bind_eq_ok.mp h
  obtain ⟨members, hmembers, h⟩ := Except.bind_eq_ok.mp h
  obtain ⟨hmem, hcompany⟩ := employees_company hids
  have hmembers := rows_of_constrained hmembers
  have howner : c.groupCompany group.id = some group.companyId :=
    ownerOf_of_mem c.groups.holds.1 hgroup
  have hnew : ∀ m ∈ ids.map (fun employeeId =>
      (⟨group.id, employeeId, group.companyId⟩ : EmployeeGroupMember)),
      m.companyId = group.companyId ∧ c.groupCompany m.groupId = some m.companyId ∧
        dir.employeeCompany m.employeeId = some m.companyId := by
    intro m hm
    obtain ⟨employeeId, he, rfl⟩ := List.mem_map.mp hm
    exact ⟨rfl, howner, hcompany _ ((hmem _).mp he)⟩
  have hchange : c.Change dir group.companyId { c with members := members } := by
    refine Catalog.change_members href hmembers (List.filter_subset_self _) ?_ hnew
    refine others_filter fun m hm hnot => decide_eq_true fun hid => hnot ?_
    exact href.member_company hm (hid ▸ howner)
  refine hchange.trans (reconcilePolicies_change hchange.references (fun p hp => ?_) h)
  exact hchange.policy_within (targetingPolicies_within href howner p hp)

/-- An employee moves from one group of the company to another. -/
theorem setEmployeeGroup_change {employeeId : String} {groupId : Option Uuid}
    (href : c.References dir)
    (h : setEmployeeGroup c dir company employeeId groupId x newId = .ok d) :
    c.Change dir company d := by
  obtain ⟨members, policies, hmoved, hpolicies, -, h⟩ := setEmployeeGroup_ok h
  obtain ⟨ids, hids⟩ := hmoved.joins
  have hemployee := (employees_company hids).2 employeeId (List.mem_singleton.mpr rfl)
  have hgroup : ∀ id ∈ groupId, c.groupCompany id = some company := by
    intro id hid
    obtain ⟨g, hg, rfl, rfl⟩ := hmoved.group id hid
    exact ownerOf_of_mem c.groups.holds.1 hg
  have hchange : c.Change dir company { c with members := members } := by
    rcases hmoved.rows with hrows | hrows
    · exact Catalog.change_members href (hrows.trans (List.append_nil _).symm)
        (List.Subset.refl _) rfl fun m hm => absurd hm List.not_mem_nil
    · have hnew : ∀ m ∈ groupId.toList.map (fun id =>
          (⟨id, employeeId, company⟩ : EmployeeGroupMember)),
          m.companyId = company ∧ c.groupCompany m.groupId = some m.companyId ∧
            dir.employeeCompany m.employeeId = some m.companyId := by
        intro m hm
        obtain ⟨id, hid, rfl⟩ := List.mem_map.mp hm
        exact ⟨rfl, hgroup id (Option.mem_toList.mp hid), hemployee⟩
      refine Catalog.change_members href hrows (List.filter_subset_self _) ?_ hnew
      exact others_filter fun m _ hnot => decide_eq_true fun hsame => hnot hsame.1
  refine hchange.trans (reconcilePolicies_change hchange.references (fun p hp => ?_) h)
  refine hchange.policy_within ?_
  -- the policies of the old and the new group
  have hp := (hpolicies p).mp hp
  simp only [movedPolicies] at hp
  split at hp
  · cases hp
  obtain ⟨hmem, htarget⟩ := List.mem_filter.mp hp
  obtain ⟨t, ht, hpolicy, hold | hnew⟩ := of_decide_eq_true htarget
  · obtain ⟨m, hm, hid⟩ := Option.map_eq_some_iff.mp hold.symm
    have hcompany : m.companyId = company ∧ m.employeeId = employeeId := by
      simpa using List.find?_some hm
    have howner := (href.members m (List.mem_of_find?_eq_some hm)).1
    rw [hid, hcompany.1] at howner
    exact within_of_target href hmem ht hpolicy howner
  · exact within_of_target href hmem ht hpolicy (hgroup t.groupId hnew.symm)

/-- A group that is removed takes its members and targets with it. -/
theorem remove_change {group : EmployeeGroup} (href : c.References dir)
    (hgroup : group ∈ c.groups.rows) (h : remove c dir group x newId = .ok d) :
    c.Change dir group.companyId d := by
  obtain ⟨targets, htargets, h⟩ := Except.bind_eq_ok.mp h
  obtain ⟨c', hreconciled, h⟩ := Except.bind_eq_ok.mp h
  obtain ⟨groups, hgroups, h⟩ := Except.bind_eq_ok.mp h
  obtain ⟨members, hmembers, h⟩ := Except.bind_eq_ok.mp h
  cases h
  have htargets := rows_of_constrained htargets
  have hgroups := rows_of_constrained hgroups
  have hmembers := rows_of_constrained hmembers
  have howner : c.groupCompany group.id = some group.companyId :=
    ownerOf_of_mem c.groups.holds.1 hgroup
  have haimed : c.Change dir group.companyId { c with targets := targets } := by
    refine Catalog.change_targets href (htargets.trans (List.append_nil _).symm)
      (List.filter_subset_self _) ?_ fun t ht => absurd ht List.not_mem_nil
    refine others_filter fun t ht hnot => decide_eq_true fun hid => hnot ?_
    exact href.ownsTarget_of_group ht (hid ▸ howner)
  have hpolicies := haimed.trans (reconcilePolicies_change haimed.references (fun p hp =>
    haimed.policy_within (targetingPolicies_within href howner p hp)) hreconciled)
  obtain ⟨assignments, rfl⟩ := reconcilePolicies_ok hreconciled
  -- the memberships go first, then the group that nothing points at any more
  have hleft : Catalog.Change dir group.companyId
      { c with targets := targets, assignments := assignments }
      { c with targets := targets, assignments := assignments, members := members } := by
    refine Catalog.change_members hpolicies.references (hmembers.trans (List.append_nil _).symm)
      (List.filter_subset_self _) ?_ fun m hm => absurd hm List.not_mem_nil
    refine others_filter fun m hm hnot => decide_eq_true fun hid => hnot ?_
    exact href.member_company hm (hid ▸ howner)
  refine (hpolicies.trans hleft).trans (Catalog.change_groups hleft.references ?_ ?_)
  · intro id hused m hm
    show ownerOf _ _ groups.rows id = some m
    rw [hgroups, ownerOf_filter]
    · exact hm
    · rintro g - rfl
      refine decide_eq_true ?_
      intro hid
      rcases hused with ⟨m, hm, hused⟩ | ⟨t, ht, hused⟩
      · have hm : m ∈ members.rows := hm
        rw [hmembers, List.mem_filter, decide_eq_true_eq] at hm
        exact hm.2 (hused.trans hid)
      · have ht : t ∈ targets.rows := ht
        rw [htargets, List.mem_filter, decide_eq_true_eq] at ht
        exact ht.2 (hused.trans hid)
  · rw [hgroups]
    refine others_filter fun g hg hnot => decide_eq_true fun hid => hnot ?_
    rw [List.inj_on_of_nodup_map c.groups.holds.1 hg hgroup hid]

end GroupService

/-! ## Policies and holidays -/

namespace PolicyService

variable {dir : Directory} {company : String} {c d : Catalog} {fields : VersionFields}
  {rules : List AccrualRule}

/-- A version is a row of its policy's company. -/
theorem addVersion_change {id policyId : Uuid} {versionNo : Int} (href : c.References dir)
    (hpolicy : c.policyCompany policyId = some company)
    (h : addVersion c id policyId versionNo fields rules = .ok d) : c.Change dir company d := by
  obtain ⟨stored, -, h⟩ := Except.bind_eq_ok.mp h
  obtain ⟨versions, hversions, h⟩ := Except.bind_eq_ok.mp h
  cases h
  exact Catalog.change_versions href (rows_of_constrained hversions) hpolicy

theorem create_change {policyId versionId categoryId : Uuid} {name : String}
    (href : c.References dir)
    (h : create c company policyId versionId name categoryId fields rules = .ok d) :
    c.Change dir company d ∧ d.policyCompany policyId = some company := by
  obtain ⟨-, -, h⟩ := Except.bind_eq_ok.mp h
  split at h
  · cases h
  next category hfind =>
  split at h
  · cases h
  next hcompany =>
  obtain ⟨policies, hpolicies, h⟩ := Except.bind_eq_ok.mp h
  have hpolicies := rows_of_constrained hpolicies
  have hcategory : c.categoryCompany categoryId = some company := by
    simp only [Catalog.categoryCompany, ownerOf]
    rw [hfind, ← not_not.mp hcompany]
    rfl
  have hadded : c.Change dir company { c with policies := policies } := by
    refine Catalog.change_policies href (fun {id m} hm => ?_) (fun p hp => ?_) ?_
    · show ownerOf _ _ policies.rows id = some m
      rw [hpolicies]
      exact ownerOf_append hm
    · rw [hpolicies, List.mem_append, List.mem_singleton] at hp
      rcases hp with hp | rfl
      · exact href.policies p hp
      · exact hcategory
    · rw [hpolicies]
      exact others_append fun p hp => by rw [List.mem_singleton.mp hp]
  have hpolicy : ({ c with policies := policies } : Catalog).policyCompany policyId
      = some company := by
    have hmem : (⟨policyId, company, categoryId, name, false⟩ : Policy) ∈ policies.rows := by
      simp [hpolicies]
    exact ownerOf_of_mem policies.holds.1 hmem
  have hversion := addVersion_change hadded.references hpolicy h
  exact ⟨hadded.trans hversion, hversion.policyCompany hpolicy⟩

/-- An update adds a version, and renames the policy if asked to. -/
theorem update_change {policy : Policy} {versionId : Uuid} {name : Option String}
    (href : c.References dir) (hpolicy : policy ∈ c.policies.rows)
    (h : update c policy versionId name fields rules = .ok d) :
    c.Change dir policy.companyId d := by
  obtain ⟨-, -, h⟩ := Except.bind_eq_ok.mp h
  split at h
  · cases h
  next current _ =>
  split at h
  · cases h
  obtain ⟨policies, hpolicies, h⟩ := Except.bind_eq_ok.mp h
  have hpolicies := rows_of_constrained hpolicies
  -- at most the name of the policy changes
  obtain ⟨renamed, hrows, hrenamed, hkeeps⟩ : ∃ renamed : Policy → Policy,
      policies.rows = c.policies.rows.map renamed ∧
      (∀ p, (renamed p).id = p.id ∧ (renamed p).companyId = p.companyId ∧
        (renamed p).categoryId = p.categoryId) ∧ ∀ p, p.id ≠ policy.id → renamed p = p := by
    refine ⟨_, hpolicies, fun p => ?_, fun p hp => ?_⟩
    · cases name with
      | none => exact ⟨rfl, rfl, rfl⟩
      | some name =>
        dsimp only
        split <;> exact ⟨rfl, rfl, rfl⟩
    · cases name with
      | none => rfl
      | some name => exact if_neg fun hid => hp hid.1
  have hchange : c.Change dir policy.companyId { c with policies := policies } := by
    refine Catalog.change_policies href (fun {id m} hm => ?_) (fun p hp => ?_) ?_
    · show ownerOf _ _ policies.rows id = some m
      rw [hrows, ownerOf_map (fun p => (hrenamed p).1) fun p => (hrenamed p).2.1]
      exact hm
    · rw [hrows] at hp
      obtain ⟨row, hrow, rfl⟩ := List.mem_map.mp hp
      rw [(hrenamed row).2.1, (hrenamed row).2.2]
      exact href.policies row hrow
    · rw [hrows]
      refine others_map (fun p hp hnot => hkeeps p fun hid => hnot ?_) fun p _ hown =>
        (hrenamed p).2.1.trans hown
      rw [List.inj_on_of_nodup_map c.policies.holds.1 hp hpolicy hid]
  have hwithin := hchange.policy_within (href.policy_within hpolicy)
  exact hchange.trans (addVersion_change hchange.references hwithin.2.1 h)

end PolicyService

namespace HolidayService

variable {dir : Directory} {c d : Catalog}

/-- A holiday is entered for its company. -/
theorem addHoliday_change {holiday : Holiday} (href : c.References dir)
    (h : addHoliday c holiday = .ok d) : c.Change dir holiday.companyId d := by
  obtain ⟨holidays, hholidays, h⟩ := Except.bind_eq_ok.mp h
  cases h
  refine Catalog.change_holidays href ?_
  rw [rows_of_constrained hholidays]
  split
  · refine others_map (fun r _ hnot => if_neg fun hday => hnot ?_) fun r _ hown => ?_
    · exact (of_decide_eq_true hday).1
    · split
      · rfl
      · exact hown
  · exact others_append fun r hr => by rw [List.mem_singleton.mp hr]

/-- A refresh enters the statutory holidays of the company. -/
theorem ensureYear_change {company : String} {statutory : List (Date × String)}
    (href : c.References dir) (h : ensureYear c company statutory = .ok d) :
    c.Change dir company d := by
  obtain ⟨holidays, hholidays, h⟩ := Except.bind_eq_ok.mp h
  cases h
  refine Catalog.change_holidays href ?_
  rw [rows_of_constrained hholidays]
  clear hholidays h
  generalize c.holidays.rows = rows
  -- each day adds a holiday of the company, or none
  induction statutory generalizing rows with
  | nil => rfl
  | cons entry rest ih =>
    rw [List.foldl_cons, ih]
    split
    · rfl
    · exact others_append fun r hr => by rw [List.mem_singleton.mp hr]

end HolidayService

/-! ## Every operation on the catalog

One case for each operation; the company is the one whose row the route has
found. -/

/-- The company an operation is for. -/
def CatalogOp.company (c : Catalog) : CatalogOp → Option String
  | .createCategory category => some category.companyId
  | .createPolicy companyId .. => some companyId
  | .updatePolicy policyId .. => c.policyCompany policyId
  | .assign policyId .. => c.policyCompany policyId
  | .endAssignment assignmentId _ =>
    ownerOf PolicyAssignment.id PolicyAssignment.companyId c.assignments.rows assignmentId
  | .createGroup companyId .. => some companyId
  | .setPolicyAudience policyId .. => c.policyCompany policyId
  | .replaceMembers groupId .. => c.groupCompany groupId
  | .setEmployeeGroup companyId .. => some companyId
  | .removeGroup groupId .. => c.groupCompany groupId
  | .addHoliday holiday => some holiday.companyId
  | .ensureYear companyId _ => some companyId

/-- A row that is found is a row of its owner. -/
theorem findOr404_ok {ρ : Type} {rows : List ρ} {id : ρ → Uuid} {wanted : Uuid} {detail : String}
    {r : ρ} (h : findOr404 rows id wanted detail = .ok r) (owner : ρ → String) :
    r ∈ rows ∧ ownerOf id owner rows wanted = some (owner r) := by
  simp only [findOr404] at h
  split at h
  · next hfind =>
    cases h
    refine ⟨List.mem_of_find?_eq_some hfind, ?_⟩
    simp only [ownerOf]
    rw [hfind]
    rfl
  · cases h

/-- An operation on the catalog is for one company. -/
theorem CatalogOp.change_of_run {dir : Directory} {c d : Catalog} {op : CatalogOp}
    (href : c.References dir) (h : op.run dir c = .ok d) :
    ∃ company, op.company c = some company ∧ c.Change dir company d := by
  cases op with
  | createCategory category =>
    obtain ⟨categories, hrows, h⟩ := Except.bind_eq_ok.mp h
    cases h
    exact ⟨_, rfl, Catalog.change_categories href (rows_of_constrained hrows) rfl⟩
  | createPolicy => exact ⟨_, rfl, (PolicyService.create_change href h).1⟩
  | updatePolicy policyId =>
    obtain ⟨policy, hfind, h⟩ := Except.bind_eq_ok.mp h
    obtain ⟨hmem, howner⟩ := findOr404_ok hfind Policy.companyId
    exact ⟨_, howner, PolicyService.update_change href hmem h⟩
  | assign policyId =>
    obtain ⟨policy, hfind, h⟩ := Except.bind_eq_ok.mp h
    obtain ⟨hmem, howner⟩ := findOr404_ok hfind Policy.companyId
    exact ⟨_, howner, AssignmentService.assign_change href (href.policy_within hmem) h⟩
  | endAssignment assignmentId =>
    obtain ⟨a, hfind, h⟩ := Except.bind_eq_ok.mp h
    obtain ⟨hmem, howner⟩ := findOr404_ok hfind PolicyAssignment.companyId
    exact ⟨_, howner, AssignmentService.endAssignment_change href hmem h⟩
  | createGroup => exact ⟨_, rfl, GroupService.create_change href h⟩
  | setPolicyAudience policyId =>
    obtain ⟨policy, hfind, h⟩ := Except.bind_eq_ok.mp h
    obtain ⟨hmem, howner⟩ := findOr404_ok hfind Policy.companyId
    exact ⟨_, howner, GroupService.setPolicyAudience_change href hmem h⟩
  | replaceMembers groupId =>
    obtain ⟨group, hfind, h⟩ := Except.bind_eq_ok.mp h
    obtain ⟨hmem, howner⟩ := findOr404_ok hfind EmployeeGroup.companyId
    exact ⟨_, howner, GroupService.replaceMembers_change href hmem h⟩
  | setEmployeeGroup => exact ⟨_, rfl, GroupService.setEmployeeGroup_change href h⟩
  | removeGroup groupId =>
    obtain ⟨group, hfind, h⟩ := Except.bind_eq_ok.mp h
    obtain ⟨hmem, howner⟩ := findOr404_ok hfind EmployeeGroup.companyId
    exact ⟨_, howner, GroupService.remove_change href hmem h⟩
  | addHoliday => exact ⟨_, rfl, HolidayService.addHoliday_change href h⟩
  | ensureYear => exact ⟨_, rfl, HolidayService.ensureYear_change href h⟩

/-! ## Requests

The company of a request is that of its employee and of the assignment it is
charged to; the route looks both up before it writes. -/

namespace Db

variable {dir : Directory} {company : String} {db : Db} {r : TimeOffRequest}

/-- What a submission writes is about the request: its snapshot, its hold and
its row. -/
theorem change_afterSubmit {kind : PolicyKind} (href : db.References dir)
    (hcompany : r.companyId = company) (hr : r.account.Within dir db.catalog company)
    (hcategory : db.catalog.categoryCompany r.categoryId = some company) :
    db.Change dir company (db.afterSubmit r kind) := by
  have hsnapshot := change_ensureSnapshot href hr
  have hstored := hsnapshot.trans
    (change_insertRequest hsnapshot.references hcompany hr hcategory)
  simp only [afterSubmit]
  split
  · exact hstored.trans (change_setHold hstored.references hr)
  · exact hstored

/-- The entries of a request are of its account. -/
theorem change_legs {es : List LedgerEntry} (href : db.References dir) (hr : r ∈ db.requests.rows)
    (hes : ∀ e ∈ es, e.companyId = r.companyId ∧ e.account = r.account) :
    db.Change dir r.companyId (db.posts es) := by
  refine change_posts href fun e he => ?_
  obtain ⟨hcompany, haccount⟩ := hes e he
  rw [haccount]
  exact ⟨hcompany, (href.requests r hr).1⟩

/-- A release writes the snapshot of the request's account. -/
theorem change_release (href : db.References dir)
    (hr : r.account.Within dir db.catalog r.companyId) (hold : Int) :
    db.Change dir r.companyId (db.release r hold) := change_setHold href hr

/-- A decision writes the legs, the hold and the row of its request. -/
theorem change_afterDecide {approve : Bool} {kind : PolicyKind} {u : RequestUpdate}
    (href : db.References dir) (hr : r ∈ db.requests.rows) :
    db.Change dir r.companyId (db.afterDecide r approve kind u) := by
  have haccount := (href.requests r hr).1
  have hsnapshot := change_ensureSnapshot href haccount
  have hdebited : db.Change dir r.companyId
        ((db.ensureSnapshot r.account).afterDebits r approve kind) ∧
      ((db.ensureSnapshot r.account).afterDebits r approve kind).requests = db.requests ∧
      ((db.ensureSnapshot r.account).afterDebits r approve kind).catalog = db.catalog := by
    simp only [afterDebits]
    split
    · refine ⟨hsnapshot.trans (change_legs hsnapshot.references hr fun e he => ?_), by simp; rfl,
        by simp; rfl⟩
      obtain ⟨leg, -, rfl⟩ := List.mem_map.mp he
      exact ⟨rfl, rfl⟩
    · exact ⟨hsnapshot, rfl, rfl⟩
  obtain ⟨hdebited, hrequests, hcatalog⟩ := hdebited
  simp only [afterDecide]
  split
  · have hreleased := hdebited.trans (change_release hdebited.references (hcatalog ▸ haccount)
      (db.snapshotOf r.account).pendingHoldMinutes)
    exact hreleased.trans (change_setRequest hreleased.references (hrequests ▸ hr) rfl)
  · exact hdebited.trans (change_setRequest hdebited.references (hrequests ▸ hr) rfl)

theorem change_afterCancel {u : RequestUpdate} (href : db.References dir)
    (hr : r ∈ db.requests.rows) : db.Change dir r.companyId (db.afterCancel r u) := by
  have haccount := (href.requests r hr).1
  have hsnapshot := change_ensureSnapshot href haccount
  simp only [afterCancel]
  split
  · have hreleased := hsnapshot.trans (change_release hsnapshot.references haccount
      (db.snapshotOf r.account).pendingHoldMinutes)
    exact hreleased.trans (change_setRequest hreleased.references hr rfl)
  · have hreversed : db.Change dir r.companyId
        ((db.ensureSnapshot r.account).posts r.reversals) := by
      refine hsnapshot.trans (change_legs hsnapshot.references hr fun e he => ?_)
      obtain ⟨leg, -, rfl⟩ := List.mem_map.mp he
      exact ⟨rfl, rfl⟩
    refine hreversed.trans (change_setRequest hreversed.references ?_ rfl)
    rw [posts_requests]
    exact hr

end Db

namespace Api

variable {dir : Directory}

/-- The employee that an actor may act for is of the actor's company. -/
theorem requireSelfOrAdmin_ok {employeeId : String} {actor : Employee} {u : Unit}
    (h : requireSelfOrAdmin dir employeeId actor = .ok u) :
    dir.employeeCompany employeeId = some actor.companyId := by
  simp only [requireSelfOrAdmin] at h
  split at h
  · cases h
  next employee hfind =>
  split at h
  · cases h
  next hcompany =>
  simp [Directory.employeeCompany, hfind, not_not.mp hcompany]

/-- The assignment that a request charges is of the employee's company. -/
theorem resolved_within {fields : RequestFields} {company : String} {db : Db}
    {r : RequestService.Resolved} (href : db.References dir)
    (hres : RequestService.Resolves dir fields db r)
    (hemployee : dir.employeeCompany fields.employeeId = some company) :
    r.assignment.companyId = company ∧
      Account.Within dir db.catalog company ⟨fields.employeeId, r.assignment.policyId⟩ ∧
      db.catalog.categoryCompany fields.categoryId = some company := by
  obtain ⟨employee, hfound, hassignment, -⟩ := hres.employee
  have hown : employee.companyId = company := by
    simp only [Directory.employee] at hfound
    simp only [Directory.employeeCompany] at hemployee
    split at hfound
    · next hfind =>
      cases hfound
      rw [hfind] at hemployee
      exact Option.some.inj hemployee
    · cases hfound
  obtain ⟨hmem, hfilter⟩ := List.mem_filter.mp (mem_of_scalarOneOrNone hassignment)
  obtain ⟨hcompany, hfor, hcategory, -⟩ := of_decide_eq_true hfilter
  obtain ⟨haccount, hin⟩ := href.catalog.assignments r.assignment hmem
  rw [hcompany, hown] at haccount hin
  rw [hfor] at haccount
  rw [hcategory] at hin
  exact ⟨hcompany.trans hown, haccount, hin⟩

/-- Requests of other companies are not found. -/
theorem findRequest_company {id : Uuid} {companyId : String} {db db' : Db} {r : TimeOffRequest}
    (h : Tx.run (findRequest id companyId) db = .ok (r, db')) : r.companyId = companyId := by
  obtain ⟨found, hfound, h⟩ := Tx.run_query_ok.mp h
  cases found with
  | none => cases h
  | some row =>
    cases h
    exact of_decide_eq_true (Option.filter_eq_some_iff.mp (Except.ok.inj hfound)).2

end Api

/-! ## Jobs

A job goes over the assignments of one company and posts to their accounts. -/

section postings

variable {dir : Directory} {db : Db} {op : Op} {ps : List Posting} {p : Posting}

open AccrualService

/-- The entries of a posting are of its company. -/
theorem Posting.Posts.companyId {e : LedgerEntry} (h : p.Posts e) : e.companyId = p.companyId := by
  rcases h with rfl | ⟨_, _, _, _, rfl⟩ <;> rfl

/-- The company whose rows an operation is about. -/
def Op.company (db : Db) : Op → Option String
  | .catalog op => op.company db.catalog
  | .submit actor .. | .decide actor .. | .cancel actor .. => some actor.companyId
  | .runScheduled companyId _ | .onPayrollProcessed companyId .. | .rollover companyId _ =>
    some companyId

/-- A job that goes through has made the postings of its plan, and recorded itself
for its company. -/
theorem AccrualService.jobResult_ok {companyId sourceId : String} {kind : JobKind}
    {plan : Except Error (List Posting)} {db' : Db} {outcome : JobRun}
    (h : jobResult companyId kind sourceId plan db = .ok (outcome, db')) :
    ∃ ps, plan = .ok ps ∧ outcome.companyId = companyId ∧
      db' = (db.postAccruals ps).recordRun outcome := by
  cases plan with
  | error e => cases h
  | ok ps =>
    cases h
    exact ⟨ps, rfl, rfl, rfl⟩

/-- A job posts to accounts of its company. -/
theorem posting_within (href : db.References dir) (h : op.postings dir db.catalog = .ok ps)
    (hp : p ∈ ps) :
    op.company db = some p.companyId ∧ p.account.Within dir db.catalog p.companyId := by
  cases op with
  | runScheduled companyId asOf =>
    obtain ⟨s, period, hs⟩ := mem_scheduledPlan h hp
    obtain ⟨-, -, hscope⟩ := ruleScope_eq_some hs.scope
    obtain ⟨hmem, hbegun⟩ := List.mem_filter.mp hs.begun
    have hcompany : s.companyId = companyId := congrArg RuleScope.companyId hscope
    have hassignment : s.assignment.companyId = companyId := (of_decide_eq_true hbegun).1
    have hwithin := (href.catalog.assignments s.assignment hmem).1
    rw [hassignment, ← hcompany] at hwithin
    rw [hs.posting_eq]
    exact ⟨congrArg some hcompany.symm, hwithin⟩
  | onPayrollProcessed companyId payrollRunId periodEnd minutesByEmployee =>
    obtain ⟨entry, -, employee, a, version, rule, hpaid⟩ := mem_payrollPlan h hp
    obtain ⟨hmem, hcovered⟩ := List.mem_filter.mp hpaid.covered
    obtain ⟨hcompany, hemployee, -⟩ := of_decide_eq_true hcovered
    have hwithin := (href.catalog.assignments a hmem).1
    rw [hcompany, hemployee entry.1 rfl] at hwithin
    rw [(payrollDecision_eq_some hpaid.decision).2.2.2]
    exact ⟨rfl, hwithin⟩
  | catalog | submit | decide | cancel | rollover =>
    cases h
    cases hp

/-- The postings of a job are for its company. -/
theorem Db.change_postAccruals (href : db.References dir)
    (h : op.postings dir db.catalog = .ok ps) {company : String}
    (hcompany : op.company db = some company) : db.Change dir company (db.postAccruals ps) := by
  obtain ⟨es, heq, hes⟩ := Db.postAccruals_eq_posts ps db
  rw [heq]
  refine Db.change_posts href fun e he => ?_
  obtain ⟨p, hp, hposts⟩ := hes e he
  obtain ⟨hown, hwithin⟩ := posting_within href h hp
  obtain rfl : p.companyId = company := Option.some.inj (hown.symm.trans hcompany)
  rw [hposts.account]
  exact ⟨hposts.companyId, hwithin⟩

/-- A rollover closes accounts of its company. -/
theorem Db.change_closeAccounts (href : db.References dir) (companyId : String) (day : Date) :
    db.Change dir companyId (db.closeAccounts companyId day
      (db.catalog.assignmentsCovering companyId none day)) := by
  obtain ⟨es, heq, hes⟩ := Db.closeAccounts_eq_posts companyId day
    (db.catalog.assignmentsCovering companyId none day) db
  rw [heq]
  refine Db.change_posts href fun e he => ?_
  obtain ⟨a, ha, version, balance, -, hclosing⟩ := hes e he
  obtain ⟨entry, -, rfl⟩ := List.mem_map.mp hclosing
  obtain ⟨hmem, hcovers⟩ := List.mem_filter.mp ha
  have hwithin := (href.catalog.assignments a hmem).1
  rw [(of_decide_eq_true hcovers).1] at hwithin
  exact ⟨rfl, hwithin⟩

end postings

/-! ## Every operation

The catalog, the jobs and the requests together: every step is a change by one
company, so a run keeps the references of all. -/

/-- Every successful operation is for one company and changes no other. -/
theorem change_of_step {dir : Directory} {db db' : Db} {op : Op} (href : db.References dir)
    (h : Step dir db op db') : ∃ company, op.company db = some company ∧
      db.Change dir company db' := by
  cases op with
  | catalog op =>
    have heffect := effect_of_step h
    cases heffect with
    | catalog hc =>
    obtain ⟨company, hcompany, hchange⟩ := CatalogOp.change_of_run href.catalog hc
    exact ⟨company, hcompany, Db.change_catalog href hchange⟩
  | submit actor id reason fields =>
    have heffect := effect_of_step h
    cases heffect with
    | @submit _ _ _ _ r row hrow hres =>
    obtain ⟨_, hrun⟩ := map_snd_eq_ok h
    obtain ⟨_, hself, -⟩ := Tx.run_lift_ok.mp hrun
    obtain ⟨hcompany, haccount, hcategory⟩ :=
      Api.resolved_within href hres (Api.requireSelfOrAdmin_ok hself)
    subst hrow
    exact ⟨_, rfl, Db.change_afterSubmit href hcompany haccount hcategory⟩
  | decide actor id approve note =>
    have heffect := effect_of_step h
    cases heffect with
    | @decide _ _ _ _ r v hfind =>
    obtain ⟨_, hrun⟩ := map_snd_eq_ok h
    obtain ⟨-, -, hroute⟩ := Tx.run_lift_ok.mp hrun
    obtain ⟨r', db₁, hr', -⟩ := Program.exec_bind_ok.mp hroute
    have hcompany := Api.findRequest_company hr'
    obtain rfl : r = r' := Option.some.inj (hfind.symm.trans (Api.findRequest_cases hr').1)
    refine ⟨_, rfl, hcompany ▸ Db.change_afterDecide href (Table.find?_eq_some.mp hfind).1⟩
  | cancel actor id today =>
    have heffect := effect_of_step h
    cases heffect with
    | @cancel _ _ _ r hfind =>
    obtain ⟨_, hrun⟩ := map_snd_eq_ok h
    obtain ⟨r', db₁, hr', -⟩ := Program.exec_bind_ok.mp hrun
    have hcompany := Api.findRequest_company hr'
    obtain rfl : r = r' := Option.some.inj (hfind.symm.trans (Api.findRequest_cases hr').1)
    refine ⟨_, rfl, hcompany ▸ Db.change_afterCancel href (Table.find?_eq_some.mp hfind).1⟩
  | runScheduled companyId asOf =>
    refine ⟨companyId, rfl, ?_⟩
    obtain ⟨outcome, hrun⟩ := map_snd_eq_ok h
    rw [AccrualService.run_runScheduled] at hrun
    obtain ⟨ps, hplan, hcompany, rfl⟩ := AccrualService.jobResult_ok hrun
    have hposted := Db.change_postAccruals href
      (show (Op.runScheduled companyId asOf).postings dir db.catalog = .ok ps from hplan) rfl
    exact hposted.trans (Db.change_recordRun hposted.references hcompany)
  | onPayrollProcessed companyId payrollRunId periodEnd minutesByEmployee =>
    refine ⟨companyId, rfl, ?_⟩
    obtain ⟨outcome, hrun⟩ := map_snd_eq_ok h
    rw [AccrualService.run_onPayrollProcessed] at hrun
    obtain ⟨ps, hplan, hcompany, rfl⟩ := AccrualService.jobResult_ok hrun
    have hposted := Db.change_postAccruals href (show (Op.onPayrollProcessed companyId payrollRunId
      periodEnd minutesByEmployee).postings dir db.catalog = .ok ps from hplan) rfl
    exact hposted.trans (Db.change_recordRun hposted.references hcompany)
  | rollover companyId asOf =>
    refine ⟨companyId, rfl, ?_⟩
    obtain ⟨outcome, hrun⟩ := map_snd_eq_ok h
    rw [RolloverService.run_run] at hrun
    cases hrun
    have hclosed := Db.change_closeAccounts href companyId (RolloverService.closingDay asOf)
    exact hclosed.trans (Db.change_recordRun hclosed.references rfl)

/-- References are kept along every run. -/
theorem references_of_run {dir : Directory} {db₀ db : Db} {l : List (Db × Op × Db)}
    (h : Run dir db₀ l db) (h₀ : db₀.References dir) : db.References dir :=
  h.invariant (I := fun db => db.References dir) h₀ fun href hstep => by
    obtain ⟨_, -, hchange⟩ := change_of_step href hstep
    exact hchange.references

/-- In every reachable state, no row refers to another company. -/
theorem Reachable.references {dir : Directory} {db : Db} (h : Reachable dir db) :
    db.References dir := by
  obtain ⟨l, hl⟩ := h
  exact references_of_run hl .empty

end TimeOff
