import TimeOff.Eligibility.Moves

/-!
# Reconciling twice

A reconciliation leaves its policy settled: on the change date, who is eligible
is who is in the audience. A settled policy is reconciled by doing nothing, and
reconciling other policies leaves it settled. So an audience or a membership
that is set a second time, on the same date, is found as it should be and
nothing is written (`setPolicyAudience_again`, `replaceMembers_again`,
`setEmployeeGroup_again`).

The three operations write members or targets before they reconcile. Written
again, these rows replace themselves (`filter_replaced`), so the audiences are
the same in both rounds, and what is left is the list of policies to reconcile:
all of them were settled by the first round (`settled_reconcilePolicies`), and
none of them was unsettled by a later one, since each policy occurs once.
-/

namespace TimeOff

open Gregorian

/-- Rows that are stored meet their constraint. -/
theorem constrained_of_stored {ρ : Type} {C : List ρ → Prop} [DecidablePred C] {rows : List ρ}
    {t : Relation C} (h : rows = t.rows) : constrained rows = .ok t := by
  subst h
  simp only [constrained, Relation.set?]
  rw [dif_pos t.holds]

namespace GroupService

open AssignmentService

variable {dir : Directory} {x : Date} {newId newId' : Uuid → String → Uuid} {policy : Policy}
  {policies : List Policy} {c d : Catalog}

/-- On the day, who is eligible is who is in the audience. -/
def Settled (c : Catalog) (dir : Directory) (policy : Policy) (x : Date) : Prop :=
  ∀ employeeId, c.Eligible policy.id employeeId x ↔ employeeId ∈ audienceEmployeeIds c dir policy

/-- What was reconciled is settled. -/
theorem settled_reconciled (h : reconcilePolicy dir x newId policy c = .ok d) :
    Settled d dir policy x := by
  intro employeeId
  rw [audience_reconciled h]
  by_cases hin : employeeId ∈ audienceEmployeeIds c dir policy
  · rw [eligible_member h hin le_rfl]
    exact iff_of_true (em _) hin
  · rw [eligible_outsider h hin le_rfl]
    refine iff_of_false ?_ hin
    rintro ⟨a, -, -, -, hlater, hcovers⟩
    exact absurd hcovers.1 (not_le.mpr hlater)

/-- And stays so while other policies are reconciled. -/
theorem Settled.of_other {other : Policy} (hsettled : Settled c dir policy x)
    (h : reconcilePolicy dir x newId other c = .ok d) (hne : policy.id ≠ other.id) :
    Settled d dir policy x := by
  intro employeeId
  rw [audience_reconciled h, eligible_of_other h hne]
  exact hsettled employeeId

/-- Nobody is missing and nobody has to leave. -/
theorem reconcilePolicy_of_settled (hsettled : Settled c dir policy x) :
    reconcilePolicy dir x newId policy c = .ok c := by
  have hmissing : missingEmployees c dir policy x = [] := by
    refine List.eq_nil_iff_forall_not_mem.mpr fun id hid => ?_
    obtain ⟨hin, hnot⟩ := mem_missingEmployees.mp hid
    exact hnot ((hsettled id).mpr hin)
  have hassign : asGroupError (assign dir policy x
      ((missingEmployees c dir policy x).map fun id => (id, newId policy.id id)) c) = .ok c := by
    rw [hmissing]
    rfl
  refine Except.bind_eq_ok.mpr ⟨c, hassign, Except.bind_eq_ok.mpr ⟨c.assignments, ?_, rfl⟩⟩
  refine constrained_of_stored ?_
  refine (List.filterMap_congr fun row _ => if_pos ?_).trans List.filterMap_some
  rw [Bool.not_eq_true, List.any_eq_false]
  intro a ha
  obtain ⟨ha, hout⟩ := List.mem_filter.mp ha
  obtain ⟨ha, hcovers⟩ := List.mem_filter.mp ha
  obtain ⟨hp, hcovers⟩ := of_decide_eq_true hcovers
  exact absurd ((hsettled a.employeeId).mp ⟨a, ha, hp, rfl, hcovers⟩) (of_decide_eq_true hout)

/-- Reconciling policies in turn settles them, and leaves others settled. -/
theorem settled_reconcilePolicies (hnodup : (policies.map (·.id)).Nodup)
    (h : reconcilePolicies dir x newId policies c = .ok d) :
    (∀ p ∈ policies, Settled d dir p x) ∧
      ∀ p, p.id ∉ policies.map (·.id) → Settled c dir p x → Settled d dir p x := by
  simp only [reconcilePolicies] at h
  induction policies generalizing c with
  | nil =>
    cases h
    exact ⟨fun p hp => absurd hp List.not_mem_nil, fun p _ hsettled => hsettled⟩
  | cons policy rest ih =>
    rw [List.foldlM_cons] at h
    obtain ⟨c', hfirst, h⟩ := Except.bind_eq_ok.mp h
    rw [List.map_cons, List.nodup_cons] at hnodup
    obtain ⟨hrest, hothers⟩ := ih hnodup.2 h
    refine ⟨fun p hp => ?_, fun p hp hsettled => ?_⟩
    · rcases List.mem_cons.mp hp with rfl | hp
      · exact hothers p hnodup.1 (settled_reconciled hfirst)
      · exact hrest p hp
    · rw [List.map_cons, List.mem_cons, not_or] at hp
      exact hothers p hp.2 (hsettled.of_other hfirst hp.1)

/-- So settled policies are reconciled by doing nothing. -/
theorem reconcilePolicies_of_settled (hsettled : ∀ p ∈ policies, Settled c dir p x) :
    reconcilePolicies dir x newId policies c = .ok c := by
  simp only [reconcilePolicies]
  induction policies with
  | nil => rfl
  | cons policy rest ih =>
    rw [List.foldlM_cons]
    refine Except.bind_eq_ok.mpr ⟨c, reconcilePolicy_of_settled (hsettled policy ?_), ih ?_⟩
    · exact List.mem_cons_self ..
    · exact fun p hp => hsettled p (List.mem_cons_of_mem _ hp)

/-! ## Setting what is set

What is written a second time is there already: the flag, the targets and the
members. So the reconciliation that follows meets the audience it has met
before, and settles what is settled. -/

/-- Rows that were replaced are replaced by the same ones. -/
theorem filter_replaced {ρ : Type} {p : ρ → Bool} {rows new : List ρ}
    (h : ∀ r ∈ new, p r = false) : (rows.filter p ++ new).filter p = rows.filter p := by
  have hnew : new.filter p = [] := List.filter_eq_nil_iff.mpr fun r hr => by simp [h r hr]
  rw [List.filter_append, hnew, List.append_nil, List.filter_filter]
  simp only [Bool.and_self]

/-- The policies aimed at a group are looked up once each. -/
theorem nodup_targetingPolicies (c : Catalog) (groupId : Uuid) :
    ((targetingPolicies c groupId).map (·.id)).Nodup :=
  c.policies.holds.1.sublist (List.filter_sublist.map _)

/-- The policy is stored with its new flag. -/
theorem setPolicyAudience_stored {allEmployees : Bool} {groupIds : List Uuid}
    (h : setPolicyAudience c dir policy allEmployees groupIds x newId = .ok d)
    (hpolicy : policy ∈ c.policies.rows) : { policy with allEmployees } ∈ d.policies.rows := by
  obtain ⟨-, policies, targets, hpolicies, -, h⟩ := setPolicyAudience_ok h
  obtain ⟨-, assignments, rfl, -⟩ := reconcilePolicy_ok h
  show _ ∈ policies.rows
  rw [hpolicies]
  exact List.mem_map.mpr ⟨policy, hpolicy, if_pos rfl⟩

/-- The audience of a policy is set again. -/
theorem setPolicyAudience_again {allEmployees : Bool} {groupIds : List Uuid}
    (h : setPolicyAudience c dir policy allEmployees groupIds x newId = .ok d) :
    setPolicyAudience d dir { policy with allEmployees } allEmployees groupIds x newId'
      = .ok d := by
  simp only [setPolicyAudience] at h ⊢
  split at h
  · cases h
  next hgroups =>
  split at h
  · cases h
  next hchosen =>
  obtain ⟨policies, hpolicies, h⟩ := Except.bind_eq_ok.mp h
  obtain ⟨targets, htargets, h⟩ := Except.bind_eq_ok.mp h
  have hsettled := settled_reconciled h
  obtain ⟨-, assignments, rfl, -⟩ := reconcilePolicy_ok h
  have hpolicies := rows_of_constrained hpolicies
  have htargets := rows_of_constrained htargets
  rw [if_neg hgroups, if_neg hchosen]
  refine Except.bind_eq_ok.mpr ⟨policies, constrained_of_stored ?_, ?_⟩
  · show policies.rows.map _ = policies.rows
    rw [hpolicies, List.map_map]
    refine List.map_congr_left fun row _ => ?_
    simp only [Function.comp_apply]
    by_cases hrow : row.id = policy.id
    · rw [if_pos hrow, if_pos hrow]
    · rw [if_neg hrow, if_neg hrow]
  refine Except.bind_eq_ok.mpr ⟨targets, constrained_of_stored ?_,
    reconcilePolicy_of_settled hsettled⟩
  show targets.rows.filter _ ++ _ = targets.rows
  rw [htargets, filter_replaced]
  intro t ht
  split at ht
  · exact absurd ht List.not_mem_nil
  · obtain ⟨groupId, -, rfl⟩ := List.mem_map.mp ht
    exact decide_eq_false (not_not.mpr rfl)

/-- Employees are available when no other group of the company has them. -/
theorem ensureAvailable_ok_iff {companyId : String} {employeeIds : List String}
    {exceptGroupId : Option Uuid} :
    ensureAvailable c dir companyId employeeIds exceptGroupId = .ok () ↔
      ∀ m ∈ c.members.rows, ¬ (m.companyId = companyId ∧ m.employeeId ∈ employeeIds ∧
        ∀ g ∈ exceptGroupId, m.groupId ≠ g) := by
  simp only [ensureAvailable]
  split
  · next hnone =>
    simp only [List.find?_eq_none, decide_eq_true_eq] at hnone
    exact iff_of_true rfl hnone
  · next m hfind =>
    refine iff_of_false (fun h => ?_) fun hall => ?_
    · obtain ⟨_, -, h⟩ := Except.bind_eq_ok.mp h
      cases h
    · have hm := List.find?_some hfind
      exact hall m (List.mem_of_find?_eq_some hfind) (of_decide_eq_true hm)

/-- Nothing but members and assignments changes. -/
theorem replaceMembers_eq {group : EmployeeGroup} {employeeIds : List String}
    (h : replaceMembers c dir group employeeIds x newId = .ok d) :
    ∃ members assignments, d = { c with members := members, assignments := assignments } := by
  obtain ⟨_, -, h⟩ := Except.bind_eq_ok.mp h
  obtain ⟨_, -, h⟩ := Except.bind_eq_ok.mp h
  obtain ⟨members, -, h⟩ := Except.bind_eq_ok.mp h
  obtain ⟨assignments, rfl⟩ := reconcilePolicies_ok h
  exact ⟨members, assignments, rfl⟩

/-- The members of a group are replaced again. -/
theorem replaceMembers_again {group : EmployeeGroup} {employeeIds : List String}
    (h : replaceMembers c dir group employeeIds x newId = .ok d) :
    replaceMembers d dir group employeeIds x newId' = .ok d := by
  obtain ⟨ids, hids, h⟩ := Except.bind_eq_ok.mp h
  obtain ⟨u, havailable, h⟩ := Except.bind_eq_ok.mp h
  obtain ⟨members, hmembers, h⟩ := Except.bind_eq_ok.mp h
  have hsettled := (settled_reconcilePolicies (nodup_targetingPolicies c group.id) h).1
  obtain ⟨assignments, rfl⟩ := reconcilePolicies_ok h
  have hmembers := rows_of_constrained hmembers
  refine Except.bind_eq_ok.mpr ⟨ids, hids, ?_⟩
  refine Except.bind_eq_ok.mpr ⟨(), ensureAvailable_ok_iff.mpr fun m hm hother => ?_, ?_⟩
  · -- the new members are in this group
    change m ∈ members.rows at hm
    rw [hmembers] at hm
    rcases List.mem_append.mp hm with hm | hm
    · exact ensureAvailable_ok_iff.mp havailable m (List.mem_filter.mp hm).1 hother
    · obtain ⟨employeeId, -, rfl⟩ := List.mem_map.mp hm
      exact hother.2.2 group.id rfl rfl
  refine Except.bind_eq_ok.mpr ⟨members, constrained_of_stored ?_,
    reconcilePolicies_of_settled hsettled⟩
  show members.rows.filter _ ++ _ = members.rows
  rw [hmembers, filter_replaced]
  intro m hm
  obtain ⟨employeeId, -, rfl⟩ := List.mem_map.mp hm
  exact decide_eq_false (not_not.mpr rfl)

/-- An employee is moved again. -/
theorem setEmployeeGroup_again {companyId employeeId : String} {groupId : Option Uuid}
    (h : setEmployeeGroup c dir companyId employeeId groupId x newId = .ok d) :
    setEmployeeGroup d dir companyId employeeId groupId x newId' = .ok d := by
  obtain ⟨ids, hjoins, h⟩ := Except.bind_eq_ok.mp h
  split at h
  · cases h
  next hknown =>
  dsimp only at h
  split at h
  · next hsame =>
    cases h
    refine Except.bind_eq_ok.mpr ⟨ids, hjoins, ?_⟩
    rw [if_neg hknown]
    exact if_pos hsame
  obtain ⟨members, hmembers, h⟩ := Except.bind_eq_ok.mp h
  obtain ⟨assignments, rfl⟩ := reconcilePolicies_ok h
  have hmembers := rows_of_constrained hmembers
  refine Except.bind_eq_ok.mpr ⟨ids, hjoins, ?_⟩
  rw [if_neg hknown]
  -- the membership that was written is found
  have hcurrent : (members.rows.find? fun m =>
      m.companyId = companyId ∧ m.employeeId = employeeId).map (·.groupId) = groupId := by
    have hold : ((c.members.rows.filter fun m =>
        ¬ (m.companyId = companyId ∧ m.employeeId = employeeId)).find? fun m =>
          m.companyId = companyId ∧ m.employeeId = employeeId) = none := by
      refine List.find?_eq_none.mpr fun m hm hsame => ?_
      exact of_decide_eq_true (List.mem_filter.mp hm).2 (of_decide_eq_true hsame)
    rw [hmembers, List.find?_append, hold, Option.none_or]
    cases groupId <;> simp
  -- an employee in a group is left there; one in no group is written again, with nothing
  cases groupId with
  | some id => exact if_pos ⟨hcurrent ▸ rfl, hcurrent⟩
  | none =>
    refine (if_neg fun hsome => ?_).trans ?_
    · have hisSome := hsome.1
      rw [hsome.2] at hisSome
      cases hisSome
    refine Except.bind_eq_ok.mpr ⟨members, constrained_of_stored ?_, ?_⟩
    · rw [Option.toList_none, List.map_nil, List.append_nil] at hmembers ⊢
      show members.rows.filter _ = members.rows
      rw [hmembers, List.filter_filter]
      simp only [Bool.and_self]
    · -- no target is of no group
      have hnone : ∀ rows : List PolicyGroupTarget,
          (rows.filter fun t => some t.groupId = none) = [] := fun rows => by simp
      simp only [hcurrent, hnone, List.map_nil, List.filter_nil, List.eraseDups_nil,
        List.insertionSort_nil, List.append_nil, List.filterMap_nil]
      rfl

end GroupService

end TimeOff
