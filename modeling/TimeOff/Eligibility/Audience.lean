import TimeOff.Eligibility.Reconcile

/-!
# Eligibility against the audience

From the change date on, the policy should cover its audience and nobody else.
`reconcile_policy` sees to it for the change date itself; for the days behind
it, that takes two things about rows it never looks at: none of the policy may
begin later for an employee outside the audience, and a member's row that runs
out must have a successor (`Lasting`). **`eligible_is_audience_iff`** says that
nothing else is needed.

A pass ends the rows of outsiders that cover the change date and gives members
without one an open-ended row. So an outsider is covered later by a row that
begins later or not at all (`eligible_outsider`), and a member by its own rows
or by the new one (`eligible_member`). For members, `Lasting` speaks of the day
behind a row's end only, and an induction over the days takes it from the change
date to every later one (`Lasting.eligible`).
-/

namespace TimeOff

open Gregorian

namespace GroupService

variable {dir : Directory} {x : Date} {newId : Uuid → String → Uuid} {policy : Policy}
  {c d : Catalog}

/-- What the rows of a policy need so that reconciling them on `x` settles
every later day as well. -/
structure Lasting (c : Catalog) (dir : Directory) (policy : Policy) (x : Date) : Prop where
  /-- No row of an outsider begins after the change date. -/
  none_later : ∀ a ∈ c.assignments.rows, a.policyId = policy.id →
    a.employeeId ∉ audienceEmployeeIds c dir policy → a.effectiveFrom ≤ x
  /-- Where a row of a member covered on the change date runs out, another one goes on. -/
  continued : ∀ a ∈ c.assignments.rows, a.policyId = policy.id →
    a.employeeId ∈ audienceEmployeeIds c dir policy → c.Eligible policy.id a.employeeId x →
    ∀ last ∈ a.effectiveTo, x ≤ last → c.Eligible policy.id a.employeeId (last.addDays 1)

instance : Decidable (Lasting c dir policy x) :=
  decidable_of_iff
    ((∀ a ∈ c.assignments.rows, a.policyId = policy.id →
        a.employeeId ∉ audienceEmployeeIds c dir policy → a.effectiveFrom ≤ x) ∧
      ∀ a ∈ c.assignments.rows, a.policyId = policy.id →
        a.employeeId ∈ audienceEmployeeIds c dir policy → c.Eligible policy.id a.employeeId x →
        ∀ last ∈ a.effectiveTo, x ≤ last → c.Eligible policy.id a.employeeId (last.addDays 1))
    ⟨fun ⟨h₁, h₂⟩ => ⟨h₁, h₂⟩, fun ⟨h₁, h₂⟩ => ⟨h₁, h₂⟩⟩

/-- Reconciling changes no audience. -/
theorem audience_reconciled (h : reconcilePolicy dir x newId policy c = .ok d) (p : Policy) :
    audienceEmployeeIds d dir p = audienceEmployeeIds c dir p := by
  obtain ⟨-, assignments, rfl, -⟩ := reconcilePolicy_ok h
  rfl

/-- A member covered on `x` stays covered as long as rows that run out have
successors: from one day to the next, by the row itself or by its successor. -/
theorem Lasting.eligible (hl : Lasting c dir policy x) {employeeId : String}
    (hin : employeeId ∈ audienceEmployeeIds c dir policy) (hx : c.Eligible policy.id employeeId x)
    (n : Nat) : c.Eligible policy.id employeeId (x.addDays n) := by
  induction n with
  | zero =>
    have hzero : x.addDays ((0 : Nat) : Int) = x := by
      rw [Date.ext_iff', Date.ordinal_addDays]
      simp
    rwa [hzero]
  | succ n ih =>
    obtain ⟨a, ha, hp, rfl, hfrom, hto⟩ := ih
    have hnext : ((x.addDays n).addDays 1) = x.addDays ((n + 1 : Nat) : Int) := by
      simp only [Date.ext_iff', Date.ordinal_addDays]
      omega
    rw [← hnext]
    by_cases hlast : x.addDays n ∈ a.effectiveTo
    · refine hl.continued a ha hp hin hx _ hlast ?_
      rw [Date.le_iff, Date.ordinal_addDays]
      omega
    · refine ⟨a, ha, hp, rfl, le_trans hfrom ?_, fun last hmem => ?_⟩
      · rw [Date.le_iff, Date.ordinal_addDays (x.addDays n)]
        omega
      · have hle := hto last hmem
        have hne : x.addDays n ≠ last := fun he => hlast (he ▸ hmem)
        rw [Ne, Date.ext_iff'] at hne
        rw [Date.le_iff] at hle ⊢
        rw [Date.ordinal_addDays (x.addDays n)]
        omega

/-- An outsider is eligible on a later day by a row that begins later. -/
theorem eligible_outsider (h : reconcilePolicy dir x newId policy c = .ok d) {employeeId : String}
    (hout : employeeId ∉ audienceEmployeeIds c dir policy) {day : Date} (hday : x ≤ day) :
    d.Eligible policy.id employeeId day ↔
      ∃ a ∈ c.assignments.rows, a.policyId = policy.id ∧ a.employeeId = employeeId ∧
        x < a.effectiveFrom ∧ a.Covers day := by
  rw [eligible_reconciled h]
  constructor
  · rintro (⟨a, ha, hp, he, hc, hkept⟩ | ⟨-, hmissing⟩)
    · refine ⟨a, ha, hp, he, ?_, hc⟩
      by_contra hle
      have hx : a.Covers x :=
        ⟨not_lt.mp hle, fun last hlast => le_trans hday (hc.2 last hlast)⟩
      rcases hkept with hlt | hin | hnot
      · exact absurd hday (not_le.mpr hlt)
      · exact hout hin
      · exact hnot hx
    · exact absurd (mem_missingEmployees.mp hmissing).1 hout
  · rintro ⟨a, ha, hp, he, hlt, hc⟩
    exact Or.inl ⟨a, ha, hp, he, hc, Or.inr (Or.inr fun hx => absurd hx.1 (not_le.mpr hlt))⟩

/-- A member is eligible on a later day by the rows it had, or by the one it
gets if none of these covers the change date. -/
theorem eligible_member (h : reconcilePolicy dir x newId policy c = .ok d) {employeeId : String}
    (hin : employeeId ∈ audienceEmployeeIds c dir policy) {day : Date} (hday : x ≤ day) :
    d.Eligible policy.id employeeId day ↔
      c.Eligible policy.id employeeId day ∨ ¬ c.Eligible policy.id employeeId x := by
  rw [eligible_reconciled h]
  constructor
  · rintro (⟨a, ha, hp, he, hc, -⟩ | ⟨-, hmissing⟩)
    · exact Or.inl ⟨a, ha, hp, he, hc⟩
    · exact Or.inr (mem_missingEmployees.mp hmissing).2
  · rintro (⟨a, ha, hp, he, hc⟩ | hnot)
    · exact Or.inl ⟨a, ha, hp, he, hc, Or.inr (Or.inl hin)⟩
    · exact Or.inr ⟨hday, mem_missingEmployees.mpr ⟨hin, hnot⟩⟩

/-- **Eligibility equals the audience on every day from the change date on**
exactly when the rows that are not examined agree with it. -/
theorem eligible_is_audience_iff (h : reconcilePolicy dir x newId policy c = .ok d) :
    (∀ day, x ≤ day → ∀ employeeId, d.Eligible policy.id employeeId day ↔
      employeeId ∈ audienceEmployeeIds d dir policy) ↔ Lasting c dir policy x := by
  rw [audience_reconciled h]
  constructor
  · intro heq
    constructor
    · intro a ha hp hout
      by_contra hlt
      rw [not_le] at hlt
      -- a row that begins later would make an outsider eligible on its first day
      have hcovers : a.Covers a.effectiveFrom :=
        ⟨le_rfl, c.assignments.holds.ordered a ha⟩
      have heligible := (eligible_outsider h hout hlt.le).mpr ⟨a, ha, hp, rfl, hlt, hcovers⟩
      exact hout ((heq _ hlt.le _).mp heligible)
    · intro a ha hp hin hx last hlast hle
      -- on the day behind the end of a row its member is still in the audience
      have hnext : x ≤ last.addDays 1 := by
        rw [Date.le_iff] at hle ⊢
        rw [Date.ordinal_addDays]
        omega
      exact ((eligible_member h hin hnext).mp ((heq _ hnext _).mpr hin)).resolve_right
        (not_not.mpr hx)
  · intro hl day hday employeeId
    by_cases hin : employeeId ∈ audienceEmployeeIds c dir policy
    · refine ⟨fun _ => hin, fun _ => (eligible_member h hin hday).mpr ?_⟩
      by_cases hx : c.Eligible policy.id employeeId x
      · refine Or.inl ?_
        -- from the change date to the day, one day after the other
        have hn := hl.eligible hin hx (day.ordinal - x.ordinal).toNat
        have hdate : x.addDays ((day.ordinal - x.ordinal).toNat : Int) = day := by
          rw [Date.le_iff] at hday
          rw [Date.ext_iff', Date.ordinal_addDays]
          omega
        rwa [hdate] at hn
      · exact Or.inr hx
    · refine ⟨fun heligible => ?_, fun hmem => absurd hmem hin⟩
      obtain ⟨a, ha, hp, rfl, hlt, -⟩ := (eligible_outsider h hin hday).mp heligible
      exact absurd (hl.none_later a ha hp hin) (not_le.mpr hlt)

end GroupService

namespace Demo

/-- Ada's group, and its policy from `effectiveFrom` on. -/
def groupPolicy (effectiveFrom : Date) : List Op :=
  [ .catalog (.createCategory ⟨categoryId, "cmp_warp_demo", "Vacation"⟩),
    .catalog (.createPolicy "cmp_warp_demo" policyId versionId "Core vacation" categoryId
      { effectiveFrom := ofYmd 2026 1 1, kind := .UNLIMITED } []),
    .catalog (.createGroup "cmp_warp_demo" groupId "Interns" ["emp_ada"]),
    .catalog (.setPolicyAudience policyId false [groupId] effectiveFrom
      fun _ _ => assignmentId) ]

/-- Ada leaves the group. -/
def leaveGroup (effectiveFrom : Date) : Op :=
  .catalog (.replaceMembers groupId [] effectiveFrom fun _ _ => nextAssignmentId)

/-- The policy, as it is then stored. -/
def policy : Policy := ⟨policyId, "cmp_warp_demo", categoryId, "Core vacation", false⟩

/-- Reconcile it after some operations. -/
def reconciled (ops : List Op) (effectiveFrom : Date) : Except Error (Db × Catalog) := do
  let (_, db) ← Op.runAll directory ops .empty
  let d ← GroupService.reconcilePolicy directory effectiveFrom (fun _ _ => otherAssignmentId) policy
    db.catalog
  return (db, d)

theorem reconciled_ok {ops : List Op} {x : Date} {db : Db} {d : Catalog}
    (h : reconciled ops x = .ok (db, d)) : Reachable directory db ∧
      GroupService.reconcilePolicy directory x (fun _ _ => otherAssignmentId) policy db.catalog =
        .ok d := by
  obtain ⟨⟨l, db'⟩, hops, h⟩ := Except.bind_eq_ok.mp h
  obtain ⟨d', hd, h⟩ := Except.bind_eq_ok.mp h
  cases h
  exact ⟨⟨l, run_of_runAll hops⟩, hd⟩

end Demo

namespace GroupService

/-- Ada's assignment begins in March. She leaves the group as of January, which
no row of hers covers, and is eligible again from March on. -/
theorem eligible_outside_audience :
    ¬ ∀ (dir : Directory) (db : Db) (policy : Policy) (x : Date) (newId : Uuid → String → Uuid)
      (d : Catalog), Reachable dir db → policy ∈ db.catalog.policies.rows →
      reconcilePolicy dir x newId policy db.catalog = .ok d →
      ∀ day, x ≤ day → ∀ employeeId, d.Eligible policy.id employeeId day ↔
        employeeId ∈ audienceEmployeeIds d dir policy := by
  intro hclaim
  have hrun : (Demo.reconciled (Demo.groupPolicy (ofYmd 2026 3 1) ++
      [Demo.leaveGroup (ofYmd 2026 1 1)]) (ofYmd 2026 1 1)).passes (fun r =>
        Demo.policy ∈ r.1.catalog.policies.rows ∧
        r.2.Eligible Demo.policyId "emp_ada" (ofYmd 2026 3 1) ∧
        "emp_ada" ∉ audienceEmployeeIds r.2 Demo.directory Demo.policy) = true := by
    decide +kernel
  obtain ⟨⟨db, d⟩, hr, htest⟩ := Except.ok_of_passes hrun
  obtain ⟨hpolicy, heligible, hout⟩ := of_decide_eq_true htest
  obtain ⟨hreach, hd⟩ := Demo.reconciled_ok hr
  exact hout ((hclaim _ _ _ _ _ _ hreach hpolicy hd (ofYmd 2026 3 1) (by decide) _).mp heligible)

/-- In the order of their dates, the changes leave nobody eligible. -/
theorem eligible_in_order :
    ∃ db d, Reachable Demo.directory db ∧
      reconcilePolicy Demo.directory (ofYmd 2026 3 16) (fun _ _ => Demo.otherAssignmentId)
        Demo.policy db.catalog = .ok d ∧
      ∀ day, ofYmd 2026 3 16 ≤ day → ∀ employeeId, d.Eligible Demo.policyId employeeId day ↔
        employeeId ∈ audienceEmployeeIds d Demo.directory Demo.policy := by
  have hrun : (Demo.reconciled (Demo.groupPolicy (ofYmd 2026 1 1) ++
      [Demo.leaveGroup (ofYmd 2026 3 16)]) (ofYmd 2026 3 16)).passes (fun r =>
        Lasting r.1.catalog Demo.directory Demo.policy (ofYmd 2026 3 16)) = true := by
    decide +kernel
  obtain ⟨⟨db, d⟩, hr, htest⟩ := Except.ok_of_passes hrun
  obtain ⟨hreach, hd⟩ := Demo.reconciled_ok hr
  exact ⟨db, d, hreach, hd, (eligible_is_audience_iff hd).mpr (of_decide_eq_true htest)⟩

end GroupService

end TimeOff
