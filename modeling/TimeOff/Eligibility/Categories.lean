import TimeOff.Accrual.Postings
import TimeOff.Eligibility.History

/-!
# What happens to assignments

An operation on the catalog keeps the assignments, adds new ones, ends one or
reconciles policies with their audience (`CatalogOp.onAssignments`). In each
case an assignment is filed under the category of its policy
(`Reachable.filed`). So the exclusion constraint, which goes by categories,
keeps the assignments of an employee to one policy apart.

The case analysis over the operations is made once, here, and what later modules
say about assignments goes through its four cases: a row that is ended keeps its
category, and a new one is written with that of the policy it is for.
-/

namespace TimeOff

open Gregorian

/-- What an operation does to the assignments. -/
inductive CatalogOp.OnAssignments (op : CatalogOp) (c d : Catalog) : Prop
  | kept (hassignments : d.assignments = c.assignments)
  | added {policyId : Uuid} {x : Date} {employees : List (String × Uuid)} {policy : Policy}
      (hop : op = .assign policyId x employees) (hpolicy : policy ∈ c.policies.rows)
      (hrows : d.assignments.rows
        = c.assignments.rows ++ employees.map (AssignmentService.opened policy x))
      (hversions : d.versions = c.versions)
  | ended {a : PolicyAssignment} {effectiveTo : Date}
      (hrows : d.assignments.rows = c.assignments.rows.map fun row =>
        if row.id = a.id then { row with effectiveTo := some effectiveTo } else row)
  | reconciled {x : Date} (hdate : op.audienceDate = some x) (hversions : d.versions = c.versions)

/-- Every operation does one of these, and leaves the policies in their
categories. -/
theorem CatalogOp.onAssignments {dir : Directory} {op : CatalogOp} {c d : Catalog}
    (h : op.run dir c = .ok d) :
    op.OnAssignments c d ∧ ∀ id category, c.Files id category → d.Files id category := by
  -- the four operations on audiences differ in what they write before they reconcile
  have haudience {x : Date} (hdate : op.audienceDate = some x)
      (hversions : d.versions = c.versions) :
      op.OnAssignments c d ∧ ∀ id category, c.Files id category → d.Files id category := by
    obtain ⟨policies, newId, c₁, c₂, -, -, -, -, hfiles, hsame⟩ := reconciles_of_run hdate h
    refine ⟨.reconciled hdate hversions, fun id category hold => ?_⟩
    have hfiled := hfiles id category hold
    simp only [Catalog.Files] at hfiled ⊢
    rwa [hsame]
  cases op with
  | createCategory category =>
    obtain ⟨_, -, h⟩ := Except.bind_eq_ok.mp h
    cases h
    exact ⟨.kept rfl, fun _ _ hfiles => hfiles⟩
  | createPolicy =>
    obtain ⟨policies, versions, rfl, hmore⟩ := PolicyService.create_eq h
    refine ⟨.kept rfl, ?_⟩
    rintro id category ⟨p, hp, hfiled⟩
    exact ⟨p, hmore hp, hfiled⟩
  | updatePolicy =>
    obtain ⟨policy, -, h⟩ := Except.bind_eq_ok.mp h
    obtain ⟨policies, versions, rfl, hsame⟩ := PolicyService.update_eq h
    refine ⟨.kept rfl, ?_⟩
    rintro id category ⟨p, hp, hid, hcategory⟩
    obtain ⟨q, hq, hqid, hqcategory⟩ := hsame p hp
    exact ⟨q, hq, hqid.trans hid, hqcategory.trans hcategory⟩
  | assign policyId effectiveFrom employees =>
    obtain ⟨policy, hfind, h⟩ := Except.bind_eq_ok.mp h
    have hversions := AssignmentService.assign_versions h
    obtain ⟨-, assignments, rfl, hrows⟩ := AssignmentService.assign_ok h
    exact ⟨.added rfl (mem_of_findOr404 hfind) hrows hversions, fun _ _ hfiles => hfiles⟩
  | endAssignment assignmentId effectiveTo =>
    obtain ⟨a, -, h⟩ := Except.bind_eq_ok.mp h
    obtain ⟨assignments, rfl, hrows⟩ := AssignmentService.endAssignment_ok h
    exact ⟨.ended hrows, fun _ _ hfiles => hfiles⟩
  | createGroup =>
    obtain ⟨groups, members, rfl⟩ := GroupService.create_eq h
    exact ⟨.kept rfl, fun _ _ hfiles => hfiles⟩
  | setPolicyAudience =>
    obtain ⟨policy, -, hrun⟩ := Except.bind_eq_ok.mp h
    exact haudience rfl (GroupService.setPolicyAudience_versions hrun)
  | replaceMembers =>
    obtain ⟨group, -, hrun⟩ := Except.bind_eq_ok.mp h
    exact haudience rfl (GroupService.replaceMembers_versions hrun)
  | setEmployeeGroup => exact haudience rfl (GroupService.setEmployeeGroup_versions h)
  | removeGroup =>
    obtain ⟨group, -, hrun⟩ := Except.bind_eq_ok.mp h
    exact haudience rfl (GroupService.remove_versions hrun)
  | addHoliday =>
    obtain ⟨_, -, h⟩ := Except.bind_eq_ok.mp h
    cases h
    exact ⟨.kept rfl, fun _ _ hfiles => hfiles⟩
  | ensureYear =>
    obtain ⟨_, -, h⟩ := Except.bind_eq_ok.mp h
    cases h
    exact ⟨.kept rfl, fun _ _ hfiles => hfiles⟩

/-- Assignments stay in the categories of their policies. -/
theorem CatalogOp.filed {dir : Directory} {op : CatalogOp} {c d : Catalog}
    (h : op.run dir c = .ok d) (hc : c.Filed) : d.Filed := by
  obtain ⟨honAssignments, hfiles⟩ := CatalogOp.onAssignments h
  cases honAssignments with
  | kept hassignments =>
    intro a ha
    rw [hassignments] at ha
    exact hfiles _ _ (hc a ha)
  | added _ hpolicy hrows =>
    intro a ha
    rw [hrows, List.mem_append] at ha
    rcases ha with ha | ha
    · exact hfiles _ _ (hc a ha)
    · obtain ⟨e, -, rfl⟩ := List.mem_map.mp ha
      exact hfiles _ _ ⟨_, hpolicy, rfl, rfl⟩
  | ended hrows =>
    intro a ha
    rw [hrows] at ha
    obtain ⟨b, hb, rfl⟩ := List.mem_map.mp ha
    split <;> exact hfiles _ _ (hc b hb)
  | reconciled hdate =>
    obtain ⟨policies, newId, c₁, c₂, hbefore, hreconciled, hafter, hpolicies, hkept, hsame⟩ :=
      reconciles_of_run hdate h
    have hc₁ : c₁.Filed := by
      intro a ha
      exact hkept _ _ (hc a (hbefore ▸ ha))
    have hc₂ := GroupService.filed_reconcilePolicies hreconciled hpolicies hc₁
    obtain ⟨assignments, rfl⟩ := GroupService.reconcilePolicies_ok hreconciled
    intro a ha
    rw [hafter] at ha
    have hfiled := hc₂ a ha
    simp only [Catalog.Files] at hfiled ⊢
    rwa [hsame]

/-- Assignments are filed in every state. -/
theorem Reachable.filed {dir : Directory} {db : Db} (h : Reachable dir db) : db.catalog.Filed := by
  obtain ⟨l, hl⟩ := h
  refine hl.invariant (I := fun db => db.catalog.Filed)
    (fun a ha => absurd ha List.not_mem_nil) fun {db op db'} hc hstep => ?_
  have heffect := effect_of_step hstep
  cases op with
  | catalog op =>
    cases heffect with
    | catalog hrun => exact CatalogOp.filed hrun hc
  | _ =>
    rw [heffect.catalog_eq not_false]
    exact hc

/-- The assignments of an employee to a policy do not meet. -/
theorem Catalog.Filed.apart {c : Catalog} (hc : c.Filed) {a b : PolicyAssignment}
    (ha : a ∈ c.assignments.rows) (hb : b ∈ c.assignments.rows)
    (hemployee : a.employeeId = b.employeeId) (hpolicy : a.policyId = b.policyId) {day : Date}
    (hday : a.Covers day) (hday' : b.Covers day) : a = b := by
  by_contra hne
  have hcategory : a.categoryId = b.categoryId := (hpolicy ▸ hc a ha).eq (hc b hb)
  have hsymm : Std.Symm fun a b : PolicyAssignment => ¬ a.Conflicts b := {
    symm := fun x y hxy hyx => hxy ⟨hyx.1.symm, hyx.2.1.symm, hyx.2.2.2, hyx.2.2.1⟩ }
  exact c.assignments.holds.apart.forall ha hb hne
    (PolicyAssignment.conflicts_of_covers hemployee hcategory hday hday')

end TimeOff
