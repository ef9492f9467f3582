import TimeOff.Accrual.Edits

/-!
# Late and repeated scheduled runs

A scheduled run looks at everything that has fallen due by its date, whatever
runs there were before it. So it skips no period: the version in force on the
day a period falls due reaches the period in its own walk and dates the credit
the same way (`no_period_skipped`). And without caps it does not matter which
runs came before: a run posts what is due and not yet in the ledger, and what is
due by a date is due by every later date (`Scheduled.mono`), with the same key
and the same content (`Scheduled.posting_eq_of_key`), so the runs of several
dates in any order leave what the run of the latest leaves
(`catchup_path_independent`).

Both rest on one description of a scheduled posting (`Scheduled`): the
assignment, the version and the rule it is planned for, its period, and its
date. That the period is reached is a fact about the walk over periods
(`Tiling.mem_walk`), not about the run; and whether a run goes through at all is
about its plan, which is a part of every later one (`scheduledPlan_mono`).
-/

namespace TimeOff

open Gregorian AccrualService

/-! ## No period is skipped

A period that has fallen due is in the plan of the run, and its credit is posted
unless its source is taken. What has taken it is a credit of the same rule and
period then, and the rule belongs to the version that this credit is under
(`Attributed`). -/

/-- A scheduled credit is under the version whose rule its source names. -/
def LedgerEntry.Attributed (c : Catalog) (e : LedgerEntry) : Prop :=
  e.sourceType = .SCHEDULED_ACCRUAL → ∀ assignmentId ruleId start,
    e.sourceId = scheduledSource assignmentId ruleId start →
      e.entryType = .ACCRUAL ∧ ∃ v ∈ c.versions.rows, v.id = e.policyVersionId ∧
        ∃ rule ∈ v.rules, rule.id = ruleId

section attributed

variable {dir : Directory} {c d : Catalog} {e : LedgerEntry} {companyId : String} {asOf : Date}
  {s : RuleScope} {period : Period} {p : Posting}

theorem LedgerEntry.Attributed.mono (h : e.Attributed c) (hgrows : c.Grows d) : e.Attributed d := by
  intro htype assignmentId ruleId start hid
  obtain ⟨hcredit, v, hv, hrest⟩ := h htype assignmentId ruleId start hid
  exact ⟨hcredit, v, hgrows.subset hv, hrest⟩

theorem AccrualService.Scheduled.attributed (h : Scheduled c dir companyId asOf s period p)
    (hpost : p.Posts e) : e.Attributed c := by
  intro htype assignmentId ruleId start hid
  rw [h.posting_eq] at hpost
  rcases hpost with rfl | ⟨_, _, _, _, rfl⟩
  · obtain ⟨-, hrule, -⟩ := scheduledSource_inj hid
    exact ⟨rfl, s.version, (Catalog.mem_versionsOf.mp h.stored).1, rfl, s.rule, h.listed, hrule⟩
  · -- the source of a cap loss is not that of a credit
    exact absurd hid.symm (ne_append_forfeiture (colon_notMem_isoformat _)
      (isoformat_ne_forfeiture _))

/-- An operation posts scheduled credits under the versions of their rules. -/
theorem LedgerEffect.attributed {db db' : Db} {op : Op} (heffect : LedgerEffect dir db op db')
    (h : ∀ e ∈ db.ledger.rows, e.sourceType.IsAccrual → e.Attributed db.catalog) :
    ∀ e ∈ db'.ledger.rows, e.sourceType.IsAccrual → e.Attributed db.catalog := by
  refine heffect.accrualEntries h ?_
  intro ps p e hplan hp hpost hsource
  obtain ⟨companyId, asOf, s, period, -, hs⟩ :=
    scheduled_of_postings hplan hp (hpost.sourceType.symm.trans hsource)
  exact hs.attributed hpost hsource

/-- In every reachable state, scheduled credits are attributed. -/
theorem Reachable.attributed {db : Db} (h : Reachable dir db) :
    ∀ e ∈ db.ledger.rows, e.sourceType.IsAccrual → e.Attributed db.catalog := by
  obtain ⟨l, hl⟩ := h
  refine hl.invariant (I := fun db => ∀ e ∈ db.ledger.rows, e.sourceType.IsAccrual →
    e.Attributed db.catalog) (fun e he => absurd he List.not_mem_nil) ?_
  intro db op db' hinv hstep e he htype
  have heffect := effect_of_step hstep
  exact (heffect.onLedger.attributed hinv e he htype).mono heffect.grows

end attributed

/-- The account begins: the employee is hired, the assignment and the first
version of the policy have begun. -/
def PolicyAssignment.accountBegins (a : PolicyAssignment) (employee : Employee)
    (first : PolicyVersion) : Date :=
  max (a.eligibleFrom employee) first.effectiveFrom

/-- After a scheduled run, every period of an assignment that has fallen due is
credited, under the version in force on the day it did. -/
theorem no_period_skipped {dir : Directory} {db db' : Db} {companyId : String} {asOf : Date}
    {outcome : JobRun} {a : PolicyAssignment} {frequency : Schedule} {accruesAt : AccruesAt}
    {company : Company} {employee : Employee} {first v : PolicyVersion} {period : Period}
    (hreach : Reachable dir db)
    (hrun : Tx.run (runScheduled dir companyId asOf) db = .ok (outcome, db'))
    (ha : a ∈ db.catalog.assignments.rows) (hcompanyId : a.companyId = companyId)
    (hcompany : dir.company companyId = .ok company)
    (hemployee : dir.employee a.employeeId = .ok employee)
    (hshare : db.catalog.SharesSchedule a.policyId frequency accruesAt)
    (hfirst : first ∈ db.catalog.versionsOf a.policyId ∧
      ∀ w ∈ db.catalog.versionsOf a.policyId, first.effectiveFrom ≤ w.effectiveFrom)
    (hperiod : period = periodOf frequency company.payPeriodAnchor period.start)
    (hbegins : a.accountBegins employee first ≤ period.finish)
    (hdue : max (accruesAt.nominal period) (a.accountBegins employee first)
      ≤ min asOf (a.effectiveTo.getD asOf))
    (hv : db.catalog.versionEffectiveOn a.policyId
      (max (accruesAt.nominal period) (a.accountBegins employee first)) = some v)
    (hcredits : v.periodCredit employee (a.eligibleFrom employee) period ≠ 0) :
    ∃ e ∈ db'.ledger.rows, e.CreditsPeriod a period.start ∧ e.policyVersionId = v.id := by
  subst hcompanyId
  obtain ⟨hmem, hpolicy, hbegun, -⟩ := Catalog.versionEffectiveOn_spec hv
  have hstored : v ∈ db.catalog.versionsOf a.policyId := Catalog.mem_versionsOf.mpr ⟨hmem, hpolicy⟩
  have hlater := hfirst.2 v hstored
  -- the version in force dates the credit as the account does
  have hday : max (accruesAt.nominal period) (max (a.eligibleFrom employee) v.effectiveFrom)
      = max (accruesAt.nominal period) (a.accountBegins employee first) := by
    refine le_antisymm (max_le (le_max_left _ _) (max_le ?_ hbegun)) ?_
    · exact le_trans (le_max_left _ _) (le_max_right _ _)
    · exact max_le_max (le_refl _) (max_le_max (le_refl _) hlater)
  have hspan : period.start ≤ period.finish := by
    rw [hperiod]
    exact start_le_finish ..
  have hreaches : max (a.eligibleFrom employee) v.effectiveFrom ≤ period.finish := by
    refine le_trans (le_max_right (accruesAt.nominal period) _) ?_
    rw [hday]
    exact max_le (AccruesAt.nominal_mem hspan).2 hbegins
  rw [← hday] at hdue hv
  obtain ⟨s, p, hs, rfl, rfl⟩ := Scheduled.exists_of_credits ha hcompany hemployee hstored hshare
    hperiod hreaches hdue hv hcredits
  -- so the run posts it, unless the ledger has it already
  obtain ⟨ps, hplan, -, rfl⟩ := runScheduled_ok hrun
  have hp : s.posting period ∈ ps := hs.posting_eq ▸ hs.mem_plan hplan
  have hkey : Table.Has (db.postAccruals ps).ledger (s.posting period).credit.key :=
    Db.has_credit_postAccruals hp
  obtain ⟨e, he, hekey⟩ := List.mem_map.mp hkey
  obtain ⟨hsource, hid⟩ := Prod.mk.inj hekey
  -- either way under the version the rule belongs to
  have heffect : LedgerEffect dir db (.runScheduled s.assignment.companyId asOf)
      (db.postAccruals ps) := .accrual ps hplan rfl
  have hattributed := heffect.attributed hreach.attributed e he (Or.inl hsource)
  obtain ⟨hcredit, w, hw, hwid, rule, hrule, hruleId⟩ := hattributed hsource _ _ _ hid
  have hversion : w = s.version := Catalog.version_eq_of_rule hw hmem hrule hs.listed hruleId
  exact ⟨e, he, ⟨hcredit, hsource, _, hid⟩, hwid.symm.trans (congrArg _ hversion)⟩

/-- With the version of February in force, February is credited under it. -/
theorem february_not_skipped :
    ∃ db outcome db', Reachable Demo.directory db ∧
      Tx.run (runScheduled Demo.directory "cmp_warp_demo" (ofYmd 2026 2 28)) db
        = .ok (outcome, db') ∧
      ∃ e ∈ db'.ledger.rows, e.CreditsPeriod Demo.assignment (ofYmd 2026 2 1) ∧
        e.policyVersionId = Demo.nextVersionId := by
  have hrun : (Op.runThen Demo.directory (Demo.editedFrom (ofYmd 2026 2 1))
      (runScheduled Demo.directory "cmp_warp_demo" (ofYmd 2026 2 28))).passes (fun r =>
        Demo.assignment ∈ r.1.catalog.assignments.rows ∧
        r.1.catalog.SharesSchedule Demo.policyId .MONTHLY .START_OF_PERIOD ∧
        (Demo.directory.company "cmp_warp_demo").passes (fun company =>
        (Demo.directory.employee "emp_ada").passes (fun employee =>
        ⟨ofYmd 2026 2 1, ofYmd 2026 2 28⟩
          = periodOf .MONTHLY company.payPeriodAnchor (ofYmd 2026 2 1) ∧
        ∃ first ∈ r.1.catalog.versionsOf Demo.policyId,
          (∀ w ∈ r.1.catalog.versionsOf Demo.policyId, first.effectiveFrom ≤ w.effectiveFrom) ∧
          ∃ v ∈ r.1.catalog.versionsOf Demo.policyId, v.id = Demo.nextVersionId ∧
          Demo.assignment.accountBegins employee first ≤ ofYmd 2026 2 28 ∧
          max (ofYmd 2026 2 1) (Demo.assignment.accountBegins employee first) ≤ ofYmd 2026 2 28 ∧
          r.1.catalog.versionEffectiveOn Demo.policyId
            (max (ofYmd 2026 2 1) (Demo.assignment.accountBegins employee first)) = some v ∧
          v.periodCredit employee (Demo.assignment.eligibleFrom employee)
            ⟨ofYmd 2026 2 1, ofYmd 2026 2 28⟩ ≠ 0))) = true := by
    decide +kernel
  obtain ⟨⟨db, outcome, db'⟩, hr, htest⟩ := Except.ok_of_passes hrun
  obtain ⟨ha, hshare, htest⟩ := of_decide_eq_true htest
  obtain ⟨company, hcompany, htest⟩ := Except.ok_of_passes htest
  obtain ⟨employee, hemployee, htest⟩ := Except.ok_of_passes htest
  obtain ⟨hperiod, first, hmem, hfirst, v, -, hid, hbegins, hdue, hv, hcredits⟩ :=
    of_decide_eq_true htest
  obtain ⟨hdb, hrun⟩ := ok_of_runThen hr
  obtain ⟨e, he, hcredit, hversion⟩ := no_period_skipped hdb hrun ha rfl hcompany hemployee hshare
    ⟨hmem, hfirst⟩ hperiod hbegins hdue hv hcredits
  exact ⟨db, outcome, db', hdb, hrun, e, he, hcredit, hversion.trans hid⟩

/-! ## Runs in any order

The credits that are due by a date are due by every later one, and the key of a
credit determines all of it. Without caps a run inserts just its credits, so a
list of runs inserts those of the latest, whatever the order. -/

namespace AccrualService

section plans

variable {cat : Catalog} {dir : Directory} {companyId : String} {asOf asOf' : Date}
  {s s' : RuleScope} {period period' : Period} {p p' : Posting} {ps : List Posting}

/-- The scope as a run of another date has it. -/
def RuleScope.at (s : RuleScope) (asOf : Date) : RuleScope :=
  { s with through := min asOf (s.assignment.effectiveTo.getD asOf) }

theorem through_mono {a : PolicyAssignment} (h : asOf ≤ asOf') :
    min asOf (a.effectiveTo.getD asOf) ≤ min asOf' (a.effectiveTo.getD asOf') := by
  cases a.effectiveTo with
  | none => simpa using h
  | some last => exact min_le_min_right last h

theorem begun_mono {a : PolicyAssignment} (h : asOf ≤ asOf')
    (ha : a ∈ cat.assignmentsBegun companyId asOf) : a ∈ cat.assignmentsBegun companyId asOf' := by
  obtain ⟨hmem, hbegun⟩ := List.mem_filter.mp ha
  obtain ⟨hcompany, hfrom⟩ := of_decide_eq_true hbegun
  exact List.mem_filter.mpr ⟨hmem, decide_eq_true ⟨hcompany, le_trans hfrom h⟩⟩

/-- The rules that run do not depend on the date of the run. -/
theorem ruleScope_at {employee : Employee} {a : PolicyAssignment} {v : PolicyVersion}
    {rule : AccrualRule} (h : ruleScope companyId asOf employee a v rule = some s) (asOf' : Date) :
    ruleScope companyId asOf' employee a v rule = some (s.at asOf') := by
  obtain ⟨hmethod, hfrequency, hs⟩ := ruleScope_eq_some h
  simp only [ruleScope]
  rw [hmethod, hfrequency, hs]
  rfl

/-- What is due by a date is due by every later one. -/
theorem Scheduled.mono (h : Scheduled cat dir companyId asOf s period p) (hle : asOf ≤ asOf') :
    Scheduled cat dir companyId asOf' (s.at asOf') period p := by
  obtain ⟨-, -, hs⟩ := ruleScope_eq_some h.scope
  have hthrough : s.through ≤ (s.at asOf').through := by
    rw [congrArg RuleScope.through hs]
    exact through_mono hle
  obtain ⟨company, periods, hcompany, hperiods, hmem⟩ := h.iterated
  obtain ⟨periods₀, hperiods₀, hspec₀⟩ :=
    mem_iterPeriods s.first s.through s.frequency company.payPeriodAnchor
  obtain rfl : periods = periods₀ := Except.ok.inj (hperiods.symm.trans hperiods₀)
  obtain ⟨hcalendar, hstart, hbefore⟩ := (hspec₀ period).mp hmem
  obtain ⟨periods', hperiods', hspec⟩ :=
    mem_iterPeriods s.first (s.at asOf').through s.frequency company.payPeriodAnchor
  exact {
    begun := begun_mono hle h.begun
    known := h.known
    stored := h.stored
    listed := h.listed
    scope := ruleScope_at h.scope asOf'
    iterated := ⟨company, periods', hcompany, hperiods',
      (hspec period).mpr ⟨hcalendar, hstart, le_trans hbefore hthrough⟩⟩
    due := le_trans h.due hthrough
    decision := h.decision }

/-- A run reaches a rule of an assignment once. -/
theorem Scheduled.scope_unique (h : Scheduled cat dir companyId asOf s period p)
    (h' : Scheduled cat dir companyId asOf s' period' p') (ha : s.assignment = s'.assignment)
    (hv : s.version = s'.version) (hr : s.rule = s'.rule) : s = s' := by
  have hemployee := h.employee_eq h' ha.symm
  have hs := h.scope
  rw [ha, hv, hr, ← hemployee, h'.scope] at hs
  exact (Option.some.inj hs).symm

/-- The key of a scheduled credit determines all of it. -/
theorem Scheduled.posting_eq_of_key (h : Scheduled cat dir companyId asOf s period p)
    (h' : Scheduled cat dir companyId asOf s' period' p') (hkey : p.credit.key = p'.credit.key) :
    p = p' := by
  rw [h.posting_eq, h'.posting_eq] at hkey ⊢
  obtain ⟨ha, hr, hstart⟩ := scheduledSource_inj (Prod.mk.inj hkey).2
  have hassignment := Catalog.assignment_eq_of_id (List.mem_filter.mp h.begun).1
    (List.mem_filter.mp h'.begun).1 ha
  obtain ⟨hv, -⟩ := Catalog.mem_versionsOf.mp h.stored
  obtain ⟨hv', -⟩ := Catalog.mem_versionsOf.mp h'.stored
  have hversion := Catalog.version_eq_of_rule hv hv' h.listed h'.listed hr
  have hrule := Catalog.rule_eq_of_id hv hv' h.listed h'.listed hr
  -- so the scopes are the same, and with them the calendar
  have hscope := h.scope_unique h' hassignment hversion hrule
  subst hscope
  obtain ⟨company, hcompany, hperiod, -⟩ := h.period_spec
  obtain ⟨company', hcompany', hperiod', -⟩ := h'.period_spec
  obtain rfl : company = company' := Except.ok.inj (hcompany.symm.trans hcompany')
  rw [hperiod, hperiod', hstart]

/-- A rule that a run gets through, a run of an earlier date gets through. -/
theorem rulePlan_mono {company : Company} {employee : Employee} {a : PolicyAssignment}
    {v : PolicyVersion} {rule : AccrualRule}
    (h : rulePlan cat company (ruleScope companyId asOf' employee a v rule) = .ok ps)
    (hle : asOf ≤ asOf') :
    ∃ qs, rulePlan cat company (ruleScope companyId asOf employee a v rule) = .ok qs := by
  cases hscope : ruleScope companyId asOf employee a v rule with
  | none => exact ⟨[], rfl⟩
  | some s =>
    obtain ⟨-, -, hs⟩ := ruleScope_eq_some hscope
    have hlater := ruleScope_at hscope asOf'
    have hthrough : s.through ≤ (s.at asOf').through := by
      rw [hs]
      exact through_mono hle
    rw [hlater] at h
    obtain ⟨periods', hperiods', h⟩ := Except.bind_eq_ok.mp h
    obtain ⟨periods₀, hperiods₀, hspec'⟩ :=
      mem_iterPeriods s.first (s.at asOf').through s.frequency company.payPeriodAnchor
    obtain rfl : periods' = periods₀ := Except.ok.inj (hperiods'.symm.trans hperiods₀)
    obtain ⟨periods, hperiods, hspec⟩ :=
      mem_iterPeriods s.first s.through s.frequency company.payPeriodAnchor
    -- the periods of the earlier date are among those of the later one
    obtain ⟨qs, hqs⟩ : ∃ qs, planFor periods (s.periodPlan cat) = .ok qs := by
      refine planFor_ok fun period hperiod => ?_
      obtain ⟨hcalendar, hstart, hbefore⟩ := (hspec period).mp hperiod
      obtain ⟨rs, hrs⟩ := ok_of_planFor h
        ((hspec' period).mpr ⟨hcalendar, hstart, le_trans hbefore hthrough⟩)
      simp only [RuleScope.periodPlan] at hrs ⊢
      by_cases hdue : s.through < s.effective period
      · exact ⟨[], if_pos hdue⟩
      · have hdue' : ¬ (s.at asOf').through < (s.at asOf').effective period :=
          not_lt.mpr (le_trans (not_lt.mp hdue) hthrough)
        rw [if_neg hdue'] at hrs
        rw [if_neg hdue]
        exact ⟨rs, hrs⟩
    refine ⟨qs, ?_⟩
    show (iterPeriods s.first s.through s.frequency (some company.payPeriodAnchor)).bind _ = _
    rw [hperiods]
    exact hqs

/-- The postings of a date are among those of every later one. -/
theorem scheduledPlan_mono (h : scheduledPlan cat dir companyId asOf' = .ok ps)
    (hle : asOf ≤ asOf') :
    ∃ qs, scheduledPlan cat dir companyId asOf = .ok qs ∧ qs ⊆ ps := by
  obtain ⟨company, hcompany, hplan⟩ := Except.bind_eq_ok.mp h
  obtain ⟨qs, hqs⟩ : ∃ qs, planFor (cat.assignmentsBegun companyId asOf)
      (assignmentPlan cat dir companyId company asOf) = .ok qs := by
    refine planFor_ok fun a ha => ?_
    obtain ⟨ps₁, h₁⟩ := ok_of_planFor hplan (begun_mono hle ha)
    obtain ⟨employee, hemployee, h₁⟩ := Except.bind_eq_ok.mp h₁
    obtain ⟨qs₁, hqs₁⟩ : ∃ qs, planFor (cat.versionsOf a.policyId) (fun v =>
        planFor v.rules fun rule =>
          rulePlan cat company (ruleScope companyId asOf employee a v rule)) = .ok qs := by
      refine planFor_ok fun v hv => ?_
      obtain ⟨ps₂, h₂⟩ := ok_of_planFor h₁ hv
      refine planFor_ok fun rule hrule => ?_
      obtain ⟨ps₃, h₃⟩ := ok_of_planFor h₂ hrule
      exact rulePlan_mono h₃ hle
    refine ⟨qs₁, ?_⟩
    show (dir.employee a.employeeId).bind _ = _
    rw [hemployee]
    exact hqs₁
  have hplan' : scheduledPlan cat dir companyId asOf = .ok qs := by
    show (dir.company companyId).bind _ = _
    rw [hcompany]
    exact hqs
  refine ⟨qs, hplan', fun p hp => ?_⟩
  obtain ⟨s, period, hs⟩ := mem_scheduledPlan hplan' hp
  exact (hs.mono hle).mem_plan h

end plans

/-- Scheduled runs of several dates, one after the other. -/
def catchUp (dir : Directory) (companyId : String) : List Date → Db → Except Error Db
  | [], db => .ok db
  | asOf :: rest, db => do
    let (_, db₁) ← Tx.run (runScheduled dir companyId asOf) db
    catchUp dir companyId rest db₁

end AccrualService

/-- No policy that a company has assigned caps balances. -/
def Catalog.Uncapped (c : Catalog) (companyId : String) : Prop :=
  ∀ a ∈ c.assignments.rows, a.companyId = companyId →
    ∀ v ∈ c.versionsOf a.policyId, v.maxBalanceMinutes = none

instance (c : Catalog) (companyId : String) : Decidable (c.Uncapped companyId) :=
  inferInstanceAs (Decidable (∀ a ∈ c.assignments.rows, _ → ∀ v ∈ c.versionsOf a.policyId, _))

/-- Postings without a cap insert their credits. -/
theorem Db.ledger_postAccruals_of_uncapped {db : Db} {ps : List Posting}
    (h : ∀ p ∈ ps, p.maxBalanceMinutes = none) :
    (db.postAccruals ps).ledger = db.ledger.insertAll (ps.map Posting.credit) := by
  induction ps generalizing db with
  | nil => rfl
  | cons p ps ih =>
    have hloss : ∀ before, p.loss before = none := fun before =>
      Posting.loss_eq_none_iff.mpr fun cap hcap => by
        rw [h p (List.mem_cons_self ..)] at hcap
        cases hcap
    have hpost : db.postAccrual p = db.post p.credit := by
      simp only [postAccrual]
      rw [hloss]
    rw [postAccruals_cons, hpost, ih fun q hq => h q (List.mem_cons_of_mem _ hq), post_ledger,
      List.map_cons, Table.insertAll_cons]

namespace AccrualService

variable {dir : Directory} {companyId : String}

/-- Its postings have no cap. -/
theorem uncapped_of_mem_plan {cat : Catalog} {asOf : Date} {ps : List Posting}
    (huncapped : cat.Uncapped companyId) (h : scheduledPlan cat dir companyId asOf = .ok ps) :
    ∀ p ∈ ps, p.maxBalanceMinutes = none := by
  intro p hp
  obtain ⟨s, period, hs⟩ := mem_scheduledPlan h hp
  obtain ⟨hmem, hbegun⟩ := List.mem_filter.mp hs.begun
  rw [hs.posting_eq]
  exact huncapped s.assignment hmem (of_decide_eq_true hbegun).1 s.version hs.stored

/-- When the run of a date goes through, so do the runs of earlier dates, and
what they insert is among its credits. -/
theorem catchUp_ok {dates : List Date} {last : Date} {ps : List Posting} {db : Db}
    (huncapped : db.catalog.Uncapped companyId)
    (h : scheduledPlan db.catalog dir companyId last = .ok ps) (hle : ∀ d ∈ dates, d ≤ last) :
    ∃ db' qs, catchUp dir companyId dates db = .ok db' ∧ db'.ledger = db.ledger.insertAll qs ∧
      qs ⊆ ps.map Posting.credit ∧ (last ∈ dates → ps.map Posting.credit ⊆ qs) := by
  induction dates generalizing db with
  | nil => exact ⟨db, [], rfl, rfl, List.nil_subset _, fun h => absurd h List.not_mem_nil⟩
  | cons asOf rest ih =>
    obtain ⟨rs, hrs, hsub⟩ := scheduledPlan_mono h (hle asOf (List.mem_cons_self ..))
    have hrun := run_runScheduled dir companyId asOf db
    rw [hrs] at hrun
    -- the catalog is the same for the rest
    have hcat : ((db.postAccruals rs).recordRun
        (jobRun companyId .SCHEDULED (isoformat asOf) rs db)).catalog = db.catalog :=
      Db.postAccruals_catalog rs db
    obtain ⟨db', qs, hrest, hledger, hqs, hlast⟩ := ih (hcat ▸ huncapped) (hcat ▸ h)
      fun d hd => hle d (List.mem_cons_of_mem _ hd)
    refine ⟨db', rs.map Posting.credit ++ qs, ?_, ?_, ?_, ?_⟩
    · show (Tx.run (runScheduled dir companyId asOf) db).bind _ = _
      rw [hrun]
      exact hrest
    · rw [hledger, Table.insertAll_append]
      exact congrArg (Table.insertAll · qs)
        (Db.ledger_postAccruals_of_uncapped (uncapped_of_mem_plan huncapped hrs))
    · exact List.append_subset.mpr ⟨List.map_subset _ hsub, hqs⟩
    · intro hmem
      rcases List.mem_cons.mp hmem with rfl | hmem
      · obtain rfl : ps = rs := Except.ok.inj (h.symm.trans hrs)
        exact List.subset_append_left _ _
      · exact List.Subset.trans (hlast hmem) (List.subset_append_right _ _)

/-- Every run of the list has a plan. -/
theorem plan_of_catchUp {dates : List Date} {db db' : Db}
    (h : catchUp dir companyId dates db = .ok db') :
    ∀ d ∈ dates, ∃ ps, scheduledPlan db.catalog dir companyId d = .ok ps := by
  induction dates generalizing db with
  | nil => exact fun d hd => absurd hd List.not_mem_nil
  | cons asOf rest ih =>
    obtain ⟨⟨outcome, db₁⟩, hrun, hrest⟩ := Except.bind_eq_ok.mp h
    obtain ⟨ps, hplan, -, rfl⟩ := runScheduled_ok hrun
    intro d hd
    rcases List.mem_cons.mp hd with rfl | hd
    · exact ⟨ps, hplan⟩
    · have hlater := ih hrest d hd
      rwa [show ((db.postAccruals ps).recordRun outcome).catalog = db.catalog from
        Db.postAccruals_catalog ps db] at hlater

/-- Without caps, scheduled runs of several dates in any order go through exactly
when the run of the latest does, and then leave the entries it leaves. -/
theorem catchup_path_independent {db : Db} {dates : List Date} {last : Date}
    (huncapped : db.catalog.Uncapped companyId) (hlast : last ∈ dates)
    (hle : ∀ d ∈ dates, d ≤ last) :
    ((∃ db₁, catchUp dir companyId dates db = .ok db₁) ↔
      ∃ outcome db₂, Tx.run (runScheduled dir companyId last) db = .ok (outcome, db₂)) ∧
    ∀ db₁ outcome db₂, catchUp dir companyId dates db = .ok db₁ →
      Tx.run (runScheduled dir companyId last) db = .ok (outcome, db₂) →
        ∀ e, e ∈ db₁.ledger.rows ↔ e ∈ db₂.ledger.rows := by
  refine ⟨⟨?_, ?_⟩, ?_⟩
  · rintro ⟨db₁, h₁⟩
    obtain ⟨ps, hplan⟩ := plan_of_catchUp h₁ last hlast
    have hrun := run_runScheduled dir companyId last db
    rw [hplan] at hrun
    exact ⟨_, _, hrun⟩
  · rintro ⟨outcome, db₂, h₂⟩
    obtain ⟨ps, hplan, -⟩ := runScheduled_ok h₂
    obtain ⟨db₁, qs, h₁, -⟩ := catchUp_ok huncapped hplan hle
    exact ⟨db₁, h₁⟩
  · intro db₁ outcome db₂ h₁ h₂ e
    obtain ⟨ps, hplan, -, rfl⟩ := runScheduled_ok h₂
    obtain ⟨db', qs, h₁', hledger, hsub, hall⟩ := catchUp_ok huncapped hplan hle
    obtain rfl : db₁ = db' := Except.ok.inj (h₁.symm.trans h₁')
    -- keys determine the credits, so only which of them are inserted matters
    have hkey : ∀ x ∈ ps.map Posting.credit, ∀ y ∈ ps.map Posting.credit,
        x.key = y.key → x = y := by
      intro x hx y hy hxy
      obtain ⟨p, hp, rfl⟩ := List.mem_map.mp hx
      obtain ⟨q, hq, rfl⟩ := List.mem_map.mp hy
      obtain ⟨s, period, hs⟩ := mem_scheduledPlan hplan hp
      obtain ⟨s', period', hs'⟩ := mem_scheduledPlan hplan hq
      rw [hs.posting_eq_of_key hs' hxy]
    have hsame : ∀ x, x ∈ qs ↔ x ∈ ps.map Posting.credit :=
      fun x => ⟨fun hx => hsub hx, fun hx => hall hlast hx⟩
    show _ ↔ e ∈ (db.postAccruals ps).ledger.rows
    rw [hledger, Db.ledger_postAccruals_of_uncapped (uncapped_of_mem_plan huncapped hplan),
      Table.mem_insertAll hkey, Table.mem_insertAll fun x hx y hy =>
        hkey x (hsub hx) y (hsub hy), hsame]

/-- Ada's months of 2026, in the order March, January, February. -/
theorem catchup_out_of_order :
    ∃ (db db₁ db₂ : Db) (outcome : JobRun), Reachable Demo.directory db ∧
      catchUp Demo.directory "cmp_warp_demo"
        [ofYmd 2026 3 31, ofYmd 2026 1 31, ofYmd 2026 2 28] db = .ok db₁ ∧
      Tx.run (runScheduled Demo.directory "cmp_warp_demo" (ofYmd 2026 3 31)) db
        = .ok (outcome, db₂) ∧
      ∀ e, e ∈ db₁.ledger.rows ↔ e ∈ db₂.ledger.rows := by
  have hrun : (Op.runThen Demo.directory (Demo.monthlyDay none)
      (runScheduled Demo.directory "cmp_warp_demo" (ofYmd 2026 3 31))).passes (fun r =>
        r.1.catalog.Uncapped "cmp_warp_demo") = true := by
    decide +kernel
  obtain ⟨⟨db, outcome, db₂⟩, hr, huncapped⟩ := Except.ok_of_passes hrun
  obtain ⟨hdb, h₂⟩ := ok_of_runThen hr
  obtain ⟨hiff, hsame⟩ := @catchup_path_independent Demo.directory "cmp_warp_demo" db
    [ofYmd 2026 3 31, ofYmd 2026 1 31, ofYmd 2026 2 28] (ofYmd 2026 3 31)
    (of_decide_eq_true huncapped) (by decide) (by decide)
  obtain ⟨db₁, h₁⟩ := hiff.mpr ⟨outcome, db₂, h₂⟩
  exact ⟨db, db₁, db₂, outcome, hdb, h₁, h₂, hsame db₁ outcome db₂ h₁ h₂⟩

end AccrualService

end TimeOff
