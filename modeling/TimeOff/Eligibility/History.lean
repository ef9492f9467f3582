import TimeOff.Eligibility.Audience

/-!
# Audience changes keep the past

The four operations that change an audience (`CatalogOp.audienceDate`) touch
assignments only by reconciling policies in turn, all on the change date
(`reconciles_of_run`). What every reconciliation keeps (`PastKept`) composes, so
an audience change keeps it as well: **`audience_change_keeps_past`**.

`PastKept` compares two catalogs: the days before the change on which an
employee is eligible for a policy are the same, and if all ranges of dates had
their ends in order before, they still have. That no two assignments of an
employee in one category overlap is a constraint of the table and needs no proof
here; the theorem states it with the rest.
-/

namespace TimeOff

open Gregorian

/-- The date from which an operation changes an audience. -/
def CatalogOp.audienceDate : CatalogOp → Option Date
  | .setPolicyAudience _ _ _ effectiveFrom _ => some effectiveFrom
  | .replaceMembers _ _ effectiveFrom _ => some effectiveFrom
  | .setEmployeeGroup _ _ _ effectiveFrom _ => some effectiveFrom
  | .removeGroup _ effectiveFrom _ => some effectiveFrom
  | _ => none

/-- Between two states of the catalog, eligibility before `x` is the same, and
ranges in order are still in order. -/
structure PastKept (x : Date) (c d : Catalog) : Prop where
  eligible : ∀ policyId employeeId day, day < x →
    (d.Eligible policyId employeeId day ↔ c.Eligible policyId employeeId day)
  ordered : (∀ a ∈ c.assignments.rows, a.Ordered) → ∀ a ∈ d.assignments.rows, a.Ordered

namespace PastKept

variable {x : Date} {c d e : Catalog}

/-- Assignments that stay keep the past. -/
theorem of_eq (h : d.assignments = c.assignments) : PastKept x c d := by
  constructor
  · intro policyId employeeId day _
    show (∃ a ∈ d.assignments.rows, _) ↔ ∃ a ∈ c.assignments.rows, _
    rw [h]
  · intro hc
    rwa [h]

theorem trans (hcd : PastKept x c d) (hde : PastKept x d e) : PastKept x c e := by
  constructor
  · intro policyId employeeId day hday
    rw [hde.eligible policyId employeeId day hday, hcd.eligible policyId employeeId day hday]
  · intro hc
    exact hde.ordered (hcd.ordered hc)

end PastKept

namespace GroupService

variable {dir : Directory} {x : Date} {newId : Uuid → String → Uuid} {policies : List Policy}
  {c d : Catalog}

/-- One policy is reconciled as a list of one. -/
theorem reconcilePolicies_singleton {policy : Policy}
    (h : reconcilePolicy dir x newId policy c = .ok d) :
    reconcilePolicies dir x newId [policy] c = .ok d := by
  simp only [reconcilePolicies]
  rw [List.foldlM_cons, h]
  rfl

/-- A reconciliation opens assignments from the date on, and ends others before it. -/
theorem reconcilePolicy_pastKept {policy : Policy}
    (h : reconcilePolicy dir x newId policy c = .ok d) : PastKept x c d :=
  ⟨fun _ _ _ hday => eligible_before h hday, ordered_reconciled h⟩

end GroupService

open GroupService

/-- An audience change works on the assignments by reconciling policies, and
leaves all policies in their categories. -/
theorem reconciles_of_run {dir : Directory} {op : CatalogOp} {x : Date} {c d : Catalog}
    (hop : op.audienceDate = some x) (h : op.run dir c = .ok d) :
    ∃ policies newId c₁ c₂, c₁.assignments = c.assignments ∧
      reconcilePolicies dir x newId policies c₁ = .ok c₂ ∧ d.assignments = c₂.assignments ∧
      (∀ p ∈ policies, c₁.Files p.id p.categoryId) ∧
      (∀ p category, c.Files p category → c₁.Files p category) ∧ d.policies = c₁.policies := by
  have hkept {policies : List Policy} {newId : Uuid → String → Uuid} {c₁ c₂ : Catalog}
      (h : reconcilePolicies dir x newId policies c₁ = .ok c₂) : c₂.policies = c₁.policies := by
    obtain ⟨assignments, rfl⟩ := reconcilePolicies_ok h
    rfl
  have htargeting {groupId : Uuid} : ∀ p ∈ targetingPolicies c groupId,
      c.Files p.id p.categoryId := fun p hp => ⟨p, List.mem_of_mem_filter hp, rfl, rfl⟩
  cases op with
  | setPolicyAudience policyId allEmployees groupIds effectiveFrom newId =>
    cases hop
    obtain ⟨policy, hfind, h⟩ := Except.bind_eq_ok.mp h
    obtain ⟨-, policies, targets, hrows, -, h⟩ := setPolicyAudience_ok h
    -- the flag of one policy is written, its category stays
    have hfiles : ∀ p category, c.Files p category →
        Catalog.Files { c with policies := policies, targets := targets } p category := by
      rintro p category ⟨row, hrow, hid, hcategory⟩
      refine ⟨_, hrows ▸ List.mem_map_of_mem hrow, ?_⟩
      split <;> exact ⟨hid, hcategory⟩
    have h := reconcilePolicies_singleton h
    refine ⟨_, newId, { c with policies := policies, targets := targets }, d, rfl, h, rfl,
      fun p hp => ?_, hfiles, hkept h⟩
    rw [List.mem_singleton.mp hp]
    exact hfiles _ _ ⟨policy, mem_of_findOr404 hfind, rfl, rfl⟩
  | replaceMembers groupId employeeIds effectiveFrom newId =>
    cases hop
    obtain ⟨group, -, h⟩ := Except.bind_eq_ok.mp h
    obtain ⟨_, -, h⟩ := Except.bind_eq_ok.mp h
    obtain ⟨_, -, h⟩ := Except.bind_eq_ok.mp h
    obtain ⟨members, -, h⟩ := Except.bind_eq_ok.mp h
    exact ⟨_, newId, { c with members := members }, d, rfl, h, rfl, htargeting,
      fun _ _ hfiles => hfiles, hkept h⟩
  | setEmployeeGroup companyId employeeId groupId effectiveFrom newId =>
    cases hop
    obtain ⟨_, -, h⟩ := Except.bind_eq_ok.mp h
    split at h
    · cases h
    dsimp only at h
    split at h
    · -- nothing to do: the employee is in that group already
      cases h
      exact ⟨[], newId, c, c, rfl, rfl, rfl, fun p hp => absurd hp List.not_mem_nil,
        fun _ _ hfiles => hfiles, rfl⟩
    · obtain ⟨members, -, h⟩ := Except.bind_eq_ok.mp h
      refine ⟨_, newId, { c with members := members }, d, rfl, h, rfl, fun p hp => ?_,
        fun _ _ hfiles => hfiles, hkept h⟩
      -- the policies to reconcile are looked up by their ids
      obtain ⟨id, -, hfound⟩ := List.mem_filterMap.mp hp
      exact ⟨p, List.mem_of_find?_eq_some hfound, rfl, rfl⟩
  | removeGroup groupId effectiveFrom newId =>
    cases hop
    obtain ⟨group, -, h⟩ := Except.bind_eq_ok.mp h
    obtain ⟨targets, -, h⟩ := Except.bind_eq_ok.mp h
    obtain ⟨c₂, hc, h⟩ := Except.bind_eq_ok.mp h
    obtain ⟨_, -, h⟩ := Except.bind_eq_ok.mp h
    obtain ⟨_, -, h⟩ := Except.bind_eq_ok.mp h
    cases h
    -- the members and the group itself go after the reconciliation
    have hpolicies := hkept hc
    exact ⟨_, newId, { c with targets := targets }, c₂, rfl, hc, rfl, htargeting,
      fun _ _ hfiles => hfiles, hpolicies⟩
  | _ => cases hop

/-- **An audience change keeps the past**: for every employee, policy and day
before it takes effect, an assignment covers the day afterwards exactly when one
did before, and the ranges are in order and apart. -/
theorem audience_change_keeps_past {dir : Directory} {op : CatalogOp} {x : Date} {c d : Catalog}
    (hop : op.audienceDate = some x) (h : op.run dir c = .ok d) :
    (∀ policyId employeeId day, day < x →
      (d.Eligible policyId employeeId day ↔ c.Eligible policyId employeeId day)) ∧
    (∀ a ∈ d.assignments.rows, a.Ordered) ∧
    d.assignments.rows.Pairwise fun a b => ¬ a.Conflicts b := by
  obtain ⟨policies, newId, c₁, c₂, hbefore, hreconciled, hafter, -⟩ := reconciles_of_run hop h
  have hkept : PastKept x c₁ c₂ :=
    reconcilePolicies_rel (fun c => .of_eq rfl) PastKept.trans reconcilePolicy_pastKept hreconciled
  have hpast := ((PastKept.of_eq hbefore).trans hkept).trans (.of_eq hafter)
  exact ⟨hpast.eligible, hpast.ordered c.assignments.holds.ordered, d.assignments.holds.apart⟩

/-- Ada leaves her group on March 16, and stays eligible up to the day before. -/
theorem leaving_keeps_past :
    ∃ db d, Reachable Demo.directory db ∧
      (CatalogOp.replaceMembers Demo.groupId [] (ofYmd 2026 3 16)
        fun _ _ => Demo.nextAssignmentId).run Demo.directory db.catalog = .ok d ∧
      db.catalog.Eligible Demo.policyId "emp_ada" (ofYmd 2026 3 15) ∧
      (∀ policyId employeeId day, day < ofYmd 2026 3 16 →
        (d.Eligible policyId employeeId day ↔ db.catalog.Eligible policyId employeeId day)) ∧
      (∀ a ∈ d.assignments.rows, a.Ordered) ∧
      d.assignments.rows.Pairwise fun a b => ¬ a.Conflicts b := by
  have hrun : (Op.runAll Demo.directory (Demo.groupPolicy (ofYmd 2026 1 1)) .empty).passes (fun r =>
      ((CatalogOp.replaceMembers Demo.groupId [] (ofYmd 2026 3 16)
        fun _ _ => Demo.nextAssignmentId).run Demo.directory r.2.catalog).passes (fun _ =>
      r.2.catalog.Eligible Demo.policyId "emp_ada" (ofYmd 2026 3 15))) = true := by
    decide +kernel
  obtain ⟨⟨l, db⟩, hops, htest⟩ := Except.ok_of_passes hrun
  obtain ⟨d, hd, heligible⟩ := Except.ok_of_passes htest
  exact ⟨db, d, ⟨l, run_of_runAll hops⟩, hd, of_decide_eq_true heligible,
    audience_change_keeps_past rfl hd⟩

end TimeOff
