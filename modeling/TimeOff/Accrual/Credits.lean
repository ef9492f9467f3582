import TimeOff.Accrual.Recredit

/-!
# What a scheduled credit rests on

Every credit of the scheduled job names its reasons: an assignment row and a
rule in its source, a version in its row. `LedgerEntry.RestsOn` says what these
have to do with the date and the amount of the credit, and
`scheduled_credits_justified` that a run adds no credit without them. A part of
a period is at least a day, because the walk over the periods starts with one
that is not over when eligibility begins (`Scheduled.coveredDays_bounds`).

What a run adds are the credits of its plan that were not in the ledger
(`credit_of_mem_postAccruals`), and everything in the plan is `Scheduled` for an
assignment, a version, a rule and a period. That the period of the plan is also
the calendar period of the credit date is where the two ways to date a credit,
at the start and at the end of a period, come together (`containing_date`).
-/

namespace TimeOff

open Gregorian AccrualService

/-- The days of a period, both ends included. -/
def Period.days (period : Period) : Int := period.finish.daysSince period.start + 1

/-- The days of a period from a day on. -/
def Period.coveredDays (period : Period) (eligibleFrom : Date) : Int :=
  period.finish.daysSince eligibleFrom + 1

/-- The reasons for a scheduled credit. -/
structure LedgerEntry.RestsOn (cat : Catalog) (dir : Directory) (companyId : String) (asOf : Date)
    (assignment : PolicyAssignment) (employee : Employee) (version : PolicyVersion)
    (rule : AccrualRule) (period : Period) (e : LedgerEntry) : Prop where
  assigned : assignment ∈ cat.assignments.rows ∧ assignment.companyId = companyId
  account : e.account = ⟨assignment.employeeId, assignment.policyId⟩
  known : dir.employee assignment.employeeId = .ok employee
  begun : max (max employee.startDate assignment.effectiveFrom) version.effectiveFrom
    ≤ e.effectiveDate
  due : e.effectiveDate ≤ min asOf (assignment.effectiveTo.getD asOf)
  inForce : cat.versionEffectiveOn assignment.policyId e.effectiveDate = some version
  recorded : e.policyVersionId = version.id
  selected : selectedRule (eligibleRules version .TIME
    (completedTenureMonths employee.startDate period.start)) = .ok rule
  source : e.sourceType = .SCHEDULED_ACCRUAL ∧
    e.sourceId = scheduledSource assignment.id rule.id period.start
  calendar : ∃ company frequency, dir.company companyId = .ok company ∧
    rule.frequency = some frequency ∧
    containing e.effectiveDate frequency (some company.payPeriodAnchor) = .ok period
  dated : period.start ≤ e.effectiveDate ∧ e.effectiveDate ≤ period.finish
  positive : 0 < e.amountMinutes
  bounded : e.amountMinutes ≤ toMinutes rule.amount rule.unit employee.workMinutesPerDay
  prorated : version.newHireProration = .PRORATE →
    period.start < max employee.startDate assignment.effectiveFrom →
      1 ≤ period.coveredDays (max employee.startDate assignment.effectiveFrom) ∧
        period.coveredDays (max employee.startDate assignment.effectiveFrom) ≤ period.days

namespace AccrualService.Scheduled

variable {cat : Catalog} {dir : Directory} {companyId : String} {asOf : Date} {s : RuleScope}
  {period : Period} {p : Posting}

/-- A period that begins before eligibility does is covered for a day at least,
and for no more than its length. -/
theorem coveredDays_bounds (h : Scheduled cat dir companyId asOf s period p)
    (hlate : period.start < s.eligibleFrom) :
    1 ≤ period.coveredDays s.eligibleFrom ∧ period.coveredDays s.eligibleFrom ≤ period.days := by
  obtain ⟨_, -, -, hfirst, -⟩ := h.period_spec
  have hfinish : s.eligibleFrom ≤ period.finish := le_trans (le_max_left _ _) hfirst
  have h₁ := Date.le_iff.mp hfinish
  have h₂ := Date.lt_iff.mp hlate
  simp only [Period.coveredDays, Period.days, Date.daysSince]
  omega

/-- The period is the calendar period of the credit date. -/
theorem containing_date (h : Scheduled cat dir companyId asOf s period p) :
    ∃ company, dir.company companyId = .ok company ∧
      containing p.effectiveDate s.frequency (some company.payPeriodAnchor) = .ok period := by
  obtain ⟨company, hcompany, hperiod, -⟩ := h.period_spec
  refine ⟨company, hcompany, ?_⟩
  rw [containing_eq, periodOf_eq hperiod h.dated.1 h.dated.2]

/-- A scheduled posting credits for the reasons it was planned for. -/
theorem restsOn (h : Scheduled cat dir companyId asOf s period p)
    (hvalid : ∀ v ∈ cat.versions.rows, v.Valid) :
    p.credit.RestsOn cat dir companyId asOf s.assignment s.employee s.version s.rule period := by
  obtain ⟨heligible, hthrough, -, hfrequency⟩ := h.scope_eq
  have hassigned := List.mem_filter.mp h.begun
  obtain ⟨hcompanyId, -⟩ := of_decide_eq_true hassigned.2
  obtain ⟨company, hcompany, hcontaining⟩ := h.containing_date
  have hposting := h.posting_eq
  have hdated := h.dated
  have hamount : p.amount ≠ 0 := by
    rw [hposting]
    exact (RuleScope.decision_eq_some h.decision).2.2.2
  have hnonneg := h.amount_nonneg hvalid
  have hle := h.amount_le hvalid
  have hdate : p.effectiveDate = s.effective period := by
    rw [hposting]
    rfl
  refine
    { assigned := ⟨hassigned.1, hcompanyId⟩
      account := ?_
      known := h.known
      begun := ?_
      due := ?_
      inForce := ?_
      recorded := ?_
      selected := h.selected
      source := ?_
      calendar := ⟨company, s.frequency, hcompany, hfrequency, hcontaining⟩
      dated := hdated
      positive := ?_
      bounded := hle
      prorated := fun _ hlate => ?_ }
  · rw [hposting]
    rfl
  · show _ ≤ p.effectiveDate
    rw [hdate]
    show max (s.assignment.eligibleFrom s.employee) _ ≤ _
    rw [← heligible]
    exact le_max_right _ _
  · show p.effectiveDate ≤ _
    rw [hdate, ← hthrough]
    exact h.due
  · show cat.versionEffectiveOn _ p.effectiveDate = _
    rw [hdate]
    exact h.inForce
  · rw [hposting]
    rfl
  · rw [hposting]
    exact ⟨rfl, rfl⟩
  · -- amounts are not negative, and nothing is posted for none
    show 0 < p.amount
    omega
  · -- part of the period is paid, for the days from eligibility on
    have hlate' : period.start < s.eligibleFrom := heligible ▸ hlate
    have hbounds := h.coveredDays_bounds hlate'
    rw [heligible] at hbounds
    exact hbounds

end AccrualService.Scheduled

/-- The credits among the entries that accruals add are the credits of their
postings. -/
theorem Db.credit_of_mem_postAccruals {ps : List Posting} {db : Db} {e : LedgerEntry}
    (he : e ∈ (db.postAccruals ps).ledger.rows) (hnew : e ∉ db.ledger.rows)
    (htype : e.entryType = .ACCRUAL) : ∃ p ∈ ps, e = p.credit := by
  obtain ⟨es, heq, hes⟩ := Db.postAccruals_eq_posts ps db
  rw [heq] at he
  rcases Db.mem_posts he with hold | hmem
  · exact absurd hold hnew
  obtain ⟨p, hp, hposts⟩ := hes e hmem
  rcases hposts with rfl | ⟨_, _, _, _, rfl⟩
  · exact ⟨p, hp, rfl⟩
  · cases htype

/-- Every credit that a scheduled run adds rests on an assignment, the version in
force on its date and the rule of the employee's tenure. The rates are in range
in every reachable state (`Reachable.valid`). -/
theorem scheduled_credits_justified {dir : Directory} {db db' : Db} {companyId : String}
    {asOf : Date} {outcome : JobRun} (hvalid : ∀ v ∈ db.catalog.versions.rows, v.Valid)
    (hrun : Tx.run (runScheduled dir companyId asOf) db = .ok (outcome, db')) :
    ∀ e ∈ db'.ledger.rows, e ∉ db.ledger.rows → e.entryType = .ACCRUAL →
      ∃ assignment employee version rule period,
        e.RestsOn db.catalog dir companyId asOf assignment employee version rule period := by
  intro e he hnew htype
  obtain ⟨ps, hplan, -, rfl⟩ := runScheduled_ok hrun
  obtain ⟨p, hp, rfl⟩ := Db.credit_of_mem_postAccruals he hnew htype
  obtain ⟨s, period, hs⟩ := mem_scheduledPlan hplan hp
  exact ⟨s.assignment, s.employee, s.version, s.rule, period, hs.restsOn hvalid⟩

/-- January, for Ada. -/
theorem january_credit_justified :
    ∃ db outcome db', Reachable Demo.directory db ∧
      Tx.run (runScheduled Demo.directory "cmp_warp_demo" (ofYmd 2026 1 31)) db
        = .ok (outcome, db') ∧
      ∃ e ∈ db'.ledger.rows, ∃ assignment employee version rule period,
        e.RestsOn db.catalog Demo.directory "cmp_warp_demo" (ofYmd 2026 1 31) assignment employee
          version rule period := by
  have hrun : (Op.runThen Demo.directory (Demo.monthlyDay none)
      (runScheduled Demo.directory "cmp_warp_demo" (ofYmd 2026 1 31))).passes (fun r =>
        ∃ e ∈ r.2.2.ledger.rows, e ∉ r.1.ledger.rows ∧ e.entryType = .ACCRUAL) = true := by
    decide +kernel
  obtain ⟨⟨db, outcome, db'⟩, hr, htest⟩ := Except.ok_of_passes hrun
  obtain ⟨e, he, hnew, htype⟩ := of_decide_eq_true htest
  obtain ⟨hreach, hjob⟩ := ok_of_runThen hr
  exact ⟨db, outcome, db', hreach, hjob, e, he,
    scheduled_credits_justified hreach.valid hjob e he hnew htype⟩

end TimeOff
