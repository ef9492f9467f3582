import TimeOff.Accrual.Edits

/-!
# Redelivered payroll runs

The source of a payroll credit names the payroll run, the employee and the rule
that was applied. A redelivery applies the rule of the version in force at the
end of the payroll period, and an edit only has to begin after the latest
version: it may begin before a payroll period that has been credited is over. A
redelivery then credits the period again, by the new rule. `paid_once_iff` says
that this is the only way to credit a payroll run twice.

The invariant of a run is that every payroll entry was posted for the event,
under some version and by a rule of it for the employee's tenure
(`PaidByEvent`). Credits of one version to one account are then one entry, since
their sources are the same (`PaidFor.eq_of_version`): so a delivery that finds
no credit but under the version in force adds none beside it (`PaidOnce.step`),
and one that finds a credit under another version adds a second, because its own
source is still free (`creditsSameVersion_of_paidOnce`).
-/

namespace TimeOff

open Gregorian AccrualService

/-- A payroll run, as it is delivered and redelivered. -/
structure PayrollEvent where
  companyId : String
  payrollRunId : String
  periodEnd : Date
  minutesByEmployee : MinutesByEmployee

/-- The job that delivers the event. -/
def PayrollEvent.delivery (event : PayrollEvent) : Op :=
  .onPayrollProcessed event.companyId event.payrollRunId event.periodEnd event.minutesByEmployee

/-- A delivery of a payroll run. -/
def Op.IsPayroll : Op → Prop
  | .onPayrollProcessed .. => True
  | _ => False

/-- An edit of a policy. -/
def Op.UpdatesPolicy : Op → Prop
  | .catalog (.updatePolicy ..) => True
  | _ => False

/-- The entry credits the account for a payroll run. -/
def LedgerEntry.CreditsPayroll (payrollRunId : String) (a : Account) (e : LedgerEntry) : Prop :=
  e.entryType = .ACCRUAL ∧ e.sourceType = .PAYROLL_ACCRUAL ∧ e.account = a ∧
    ∃ ruleId, e.sourceId = payrollSource payrollRunId a.employeeId ruleId

/-- The account is credited at most once for a payroll run. -/
def PaidOnce (payrollRunId : String) (a : Account) (ledger : Ledger) : Prop :=
  ∀ e ∈ ledger.rows, ∀ f ∈ ledger.rows,
    e.CreditsPayroll payrollRunId a → f.CreditsPayroll payrollRunId a → e = f

/-- The rule of a version for the employee's tenure at the end of a payroll
period. -/
def PolicyVersion.payrollRule (v : PolicyVersion) (employee : Employee) (periodEnd : Date) :
    Except Error AccrualRule :=
  selectedRule (eligibleRules v .HOURS_WORKED (completedTenureMonths employee.startDate periodEnd))

/-- What a version credits for minutes worked. -/
def PolicyVersion.payrollCredit (v : PolicyVersion) (employee : Employee) (periodEnd : Date)
    (minutesWorked : Int) : Int :=
  (v.payrollRule employee periodEnd >>= fun rule =>
    payrollAmount minutesWorked rule.amount rule.unit rule.perMinutesWorked
      employee.workMinutesPerDay).toOption.getD 0

/-- A delivery of the event that has something to credit to the account finds no
credit of the event but under the version in force at the end of the payroll
period. -/
def CreditsSameVersion (dir : Directory) (event : PayrollEvent) (a : Account) (db : Db) (op : Op) :
    Prop :=
  op = event.delivery → ∀ entry ∈ event.minutesByEmployee.rows, entry.1 = a.employeeId →
    (∃ x ∈ db.catalog.assignmentsCovering event.companyId (some a.employeeId) event.periodEnd,
      x.policyId = a.policyId) →
    ∀ v ∈ db.catalog.versionEffectiveOn a.policyId event.periodEnd,
      ∀ employee, dir.employee a.employeeId = .ok employee →
        v.payrollCredit employee event.periodEnd entry.2 ≠ 0 →
          ∀ e ∈ db.ledger.rows, e.CreditsPayroll event.payrollRunId a → e.policyVersionId = v.id

/-! ## What a payroll run posts

The reasons of a payroll posting, `PaidOut`, read in both directions: what a
posting of the plan rests on, and that whatever rests on it is in the plan. -/

/-- The source of a payroll credit tells the employee and the rule. -/
theorem payrollSource_inj {payrollRunId e f : String} {r s : Uuid}
    (h : payrollSource payrollRunId e r = payrollSource payrollRunId f s) : e = f ∧ r = s := by
  obtain ⟨hrest, hrule⟩ := Text.append_sep_inj' (x := ':') r.colon_notMem s.colon_notMem h
  exact ⟨(String.append_right_inj _).mp hrest, Uuid.text_injective hrule⟩

namespace AccrualService

variable {cat : Catalog} {dir : Directory} {companyId payrollRunId : String} {periodEnd : Date}
  {employeeId : String} {minutesWorked : Int} {employee : Employee} {assignment : PolicyAssignment}
  {version : PolicyVersion} {rule : AccrualRule} {p : Posting}

/-- What a payroll run posts for a rule. -/
def payrollPosting (companyId payrollRunId : String) (periodEnd : Date) (employeeId : String)
    (minutesWorked : Int) (assignment : PolicyAssignment) (version : PolicyVersion)
    (rule : AccrualRule) (amount : Int) : Posting where
  companyId := companyId
  employeeId := employeeId
  policyId := assignment.policyId
  policyVersionId := version.id
  effectiveDate := periodEnd
  sourceType := .PAYROLL_ACCRUAL
  sourceId := payrollSource payrollRunId employeeId rule.id
  amount := amount
  maxBalanceMinutes := version.maxBalanceMinutes
  note := s!"{minutesWorked} minutes worked"

namespace PaidOut

theorem stored (h : PaidOut cat dir companyId payrollRunId periodEnd employeeId minutesWorked
    employee assignment version rule p) :
    version ∈ cat.versions.rows ∧ version.policyId = assignment.policyId := by
  obtain ⟨hmem, hpolicy, -⟩ := Catalog.versionEffectiveOn_spec h.inForce
  exact ⟨hmem, hpolicy⟩

/-- The rule is the one of the employee's tenure. -/
theorem selected (h : PaidOut cat dir companyId payrollRunId periodEnd employeeId minutesWorked
    employee assignment version rule p) : version.payrollRule employee periodEnd = .ok rule := by
  have hdecision := h.decision
  simp only [payrollDecision] at hdecision
  split at hdecision
  · cases hdecision
  obtain ⟨selected, hselected, hdecision⟩ := Except.bind_eq_ok.mp hdecision
  split at hdecision
  · cases hdecision
  next hid =>
  have hrule : selected = rule := Catalog.rule_eq_of_id h.stored.1 h.stored.1
    (selectedRule_spec hselected).1 h.listed (not_not.mp hid)
  simp only [PolicyVersion.payrollRule]
  rw [hselected, hrule]

/-- The posting is determined by its amount. -/
theorem posting_eq (h : PaidOut cat dir companyId payrollRunId periodEnd employeeId minutesWorked
    employee assignment version rule p) :
    p = payrollPosting companyId payrollRunId periodEnd employeeId minutesWorked assignment version
      rule p.amount :=
  (payrollDecision_eq_some h.decision).2.2.2

theorem credits (h : PaidOut cat dir companyId payrollRunId periodEnd employeeId minutesWorked
    employee assignment version rule p) :
    version.payrollCredit employee periodEnd minutesWorked = p.amount ∧ p.amount ≠ 0 := by
  obtain ⟨-, hamount, hne, -⟩ := payrollDecision_eq_some h.decision
  refine ⟨?_, hne⟩
  simp only [PolicyVersion.payrollCredit]
  rw [h.selected]
  show (payrollAmount minutesWorked rule.amount rule.unit rule.perMinutesWorked
    employee.workMinutesPerDay).toOption.getD 0 = _
  rw [hamount]
  rfl

/-- A version that has something to credit does. -/
theorem exists_of_credits
    (hcovered : assignment ∈ cat.assignmentsCovering companyId (some employeeId) periodEnd)
    (hknown : dir.employee employeeId = .ok employee)
    (hforce : cat.versionEffectiveOn assignment.policyId periodEnd = some version)
    (hcredits : version.payrollCredit employee periodEnd minutesWorked ≠ 0) :
    ∃ rule p, PaidOut cat dir companyId payrollRunId periodEnd employeeId minutesWorked employee
      assignment version rule p := by
  simp only [PolicyVersion.payrollCredit] at hcredits
  cases hrule : version.payrollRule employee periodEnd with
  | error e =>
    rw [hrule] at hcredits
    exact absurd rfl hcredits
  | ok rule =>
  have hselected : selectedRule (eligibleRules version .HOURS_WORKED
      (completedTenureMonths employee.startDate periodEnd)) = .ok rule := hrule
  obtain ⟨hlisted, hmethod⟩ := selectedRule_spec hselected
  cases hamount : payrollAmount minutesWorked rule.amount rule.unit rule.perMinutesWorked
      employee.workMinutesPerDay with
  | error e =>
    rw [hrule] at hcredits
    simp [bind, Except.bind, hamount, Except.toOption] at hcredits
  | ok amount =>
  have hne : amount ≠ 0 := by
    rw [hrule] at hcredits
    simpa [bind, Except.bind, hamount, Except.toOption] using hcredits
  refine ⟨rule, payrollPosting companyId payrollRunId periodEnd employeeId minutesWorked assignment
    version rule amount, ⟨hcovered, hknown, hforce, hlisted, ?_⟩⟩
  simp only [payrollDecision]
  rw [if_neg (not_not.mpr hmethod)]
  simp [bind, Except.bind, hselected, hamount, hne, payrollPosting]

/-- A payroll run makes every posting that has its reasons. -/
theorem mem_plan {minutesByEmployee : MinutesByEmployee} {ps : List Posting}
    (h : PaidOut cat dir companyId payrollRunId periodEnd employeeId minutesWorked employee
      assignment version rule p) (hentry : (employeeId, minutesWorked) ∈ minutesByEmployee.rows)
    (hplan : payrollPlan cat dir companyId payrollRunId periodEnd minutesByEmployee = .ok ps) :
    p ∈ ps := by
  obtain ⟨ps₁, h₁⟩ := ok_of_planFor hplan hentry
  obtain ⟨ps₂, h₂⟩ := ok_of_planFor h₁ h.covered
  have h₂' := h₂
  obtain ⟨employee', hemployee', h₂'⟩ := Except.bind_eq_ok.mp h₂'
  obtain rfl : employee = employee' := Except.ok.inj (h.known.symm.trans hemployee')
  rw [h.inForce] at h₂'
  have hdecision : planDecision (payrollDecision companyId payrollRunId periodEnd employeeId
      minutesWorked employee assignment version rule) = .ok [p] := by
    rw [h.decision]
    rfl
  have hp₂ : p ∈ ps₂ :=
    (mem_planFor h₂' p).mpr ⟨rule, h.listed, [p], hdecision, List.mem_singleton.mpr rfl⟩
  have hp₁ : p ∈ ps₁ := (mem_planFor h₁ p).mpr ⟨assignment, h.covered, ps₂, h₂, hp₂⟩
  exact (mem_planFor hplan p).mpr ⟨_, hentry, ps₁, h₁, hp₁⟩

end PaidOut

end AccrualService

/-! ## What the credits rest on

The employee and the rule are in the source of a credit, and a rule belongs to
one version. So two credits of one event to one account are under two versions,
and a redelivery adds one exactly when the version in force by then is another
one and credits something. -/

/-- A payroll entry of the event: the credit of a rule for the employee's
tenure, or its cap loss. -/
structure LedgerEntry.PaidFor (dir : Directory) (event : PayrollEvent) (c : Catalog)
    (v : PolicyVersion) (rule : AccrualRule) (e : LedgerEntry) : Prop where
  stored : v ∈ c.versions.rows
  version : e.policyVersionId = v.id
  policy : e.policyId = v.policyId
  selected : ∃ employee, dir.employee e.employeeId = .ok employee ∧
    v.payrollRule employee event.periodEnd = .ok rule
  source : e.entryType = .ACCRUAL ∧
      e.sourceId = payrollSource event.payrollRunId e.employeeId rule.id ∨
    ∃ s, e.sourceId = s ++ ":forfeiture"

/-- Every payroll entry is one of the event. -/
def PaidByEvent (dir : Directory) (event : PayrollEvent) (c : Catalog) (ledger : Ledger) : Prop :=
  ∀ e ∈ ledger.rows, e.sourceType = .PAYROLL_ACCRUAL → ∃ v rule, e.PaidFor dir event c v rule

section runs

variable {dir : Directory} {event : PayrollEvent} {a : Account} {c d : Catalog} {db db' : Db}
  {op : Op} {e f : LedgerEntry} {v w : PolicyVersion} {rule rule' : AccrualRule}

namespace LedgerEntry.PaidFor

theorem mono (h : e.PaidFor dir event c v rule) (hgrows : c.Grows d) :
    e.PaidFor dir event d v rule :=
  { h with stored := hgrows.subset h.stored }

/-- The source of a payroll credit leaves no doubt which it is. -/
theorem of_source (h : e.PaidFor dir event c v rule) {employeeId : String} {ruleId : Uuid}
    (hid : e.sourceId = payrollSource event.payrollRunId employeeId ruleId) :
    e.entryType = .ACCRUAL ∧ e.employeeId = employeeId ∧ rule.id = ruleId := by
  rcases h.source with ⟨hcredit, hsource⟩ | ⟨s, hsource⟩
  · obtain ⟨hemployee, hrule⟩ := payrollSource_inj (hsource.symm.trans hid)
    exact ⟨hcredit, hemployee, hrule⟩
  · exact absurd (hid.symm.trans hsource)
      (ne_append_forfeiture ruleId.colon_notMem ruleId.text_ne_forfeiture)

/-- Credits of one version to one account are one entry. -/
theorem eq_of_version (h : e.PaidFor dir event c v rule) (h' : f.PaidFor dir event c w rule')
    {ledger : Ledger} (he : e ∈ ledger.rows) (hf : f ∈ ledger.rows)
    (hecredits : e.CreditsPayroll event.payrollRunId a)
    (hfcredits : f.CreditsPayroll event.payrollRunId a)
    (hversion : e.policyVersionId = f.policyVersionId) : e = f := by
  obtain ⟨-, hesource, hea, ruleId, heid⟩ := hecredits
  obtain ⟨-, hfsource, hfa, ruleId', hfid⟩ := hfcredits
  have hvw : v = w := Catalog.version_eq_of_id h.stored h'.stored
    (h.version.symm.trans (hversion.trans h'.version))
  obtain ⟨employee, hemployee, hselected⟩ := h.selected
  obtain ⟨employee', hemployee', hselected'⟩ := h'.selected
  obtain ⟨-, hemp, hruleId⟩ := h.of_source heid
  obtain ⟨-, hemp', hruleId'⟩ := h'.of_source hfid
  rw [hemp] at hemployee
  rw [hemp', hemployee] at hemployee'
  obtain rfl : employee = employee' := Except.ok.inj hemployee'
  rw [hvw, hselected'] at hselected
  obtain rfl : rule' = rule := Except.ok.inj hselected
  refine Table.eq_of_key he hf (Prod.ext (hesource.trans hfsource.symm) ?_)
  show e.sourceId = f.sourceId
  rw [heid, hfid, ← hruleId, ← hruleId']

end LedgerEntry.PaidFor

/-- What a delivery of the event posts. -/
theorem AccrualService.PaidOut.paidFor {entry : String × Int} {employee : Employee}
    {assignment : PolicyAssignment} {p : Posting}
    (h : PaidOut c dir event.companyId event.payrollRunId event.periodEnd entry.1 entry.2 employee
      assignment v rule p) (hpost : p.Posts e) : e.PaidFor dir event c v rule := by
  have hp := h.posting_eq
  obtain ⟨hmem, hpolicy⟩ := h.stored
  rw [hp] at hpost
  rcases hpost with rfl | ⟨_, _, _, _, rfl⟩
  · exact ⟨hmem, rfl, hpolicy.symm, ⟨employee, h.known, h.selected⟩, Or.inl ⟨rfl, rfl⟩⟩
  · exact ⟨hmem, rfl, hpolicy.symm, ⟨employee, h.known, h.selected⟩, Or.inr ⟨_, rfl⟩⟩

/-- The payroll entries after an operation: those before, and what a delivery of
the event posts. -/
theorem LedgerEffect.payrollEntries (heffect : LedgerEffect dir db op db')
    (hop : op.IsPayroll → op = event.delivery) :
    ∀ e ∈ db'.ledger.rows, e.sourceType = .PAYROLL_ACCRUAL → e ∈ db.ledger.rows ∨
      (op = event.delivery ∧ ∃ entry ∈ event.minutesByEmployee.rows,
        ∃ employee assignment v rule p, PaidOut db.catalog dir event.companyId event.payrollRunId
          event.periodEnd entry.1 entry.2 employee assignment v rule p ∧ p.Posts e) := by
  intro e he htype
  refine heffect.accrualEntries (P := fun e => e.sourceType = .PAYROLL_ACCRUAL →
    e ∈ db.ledger.rows ∨ (op = event.delivery ∧ ∃ entry ∈ event.minutesByEmployee.rows,
      ∃ employee assignment v rule p, PaidOut db.catalog dir event.companyId event.payrollRunId
        event.periodEnd entry.1 entry.2 employee assignment v rule p ∧ p.Posts e))
    (fun e he _ _ => Or.inl he) ?_ e he (Or.inr htype) htype
  intro ps p e hplan hp hpost htype
  have hptype := hpost.sourceType.symm.trans htype
  cases op with
  | onPayrollProcessed companyId payrollRunId periodEnd minutesByEmployee =>
    have hdelivery := hop trivial
    obtain ⟨rfl, rfl, rfl, rfl⟩ := Op.onPayrollProcessed.inj hdelivery
    obtain ⟨entry, hentry, employee, assignment, v, rule, hpaid⟩ := mem_payrollPlan hplan hp
    exact Or.inr ⟨hdelivery, entry, hentry, employee, assignment, v, rule, p, hpaid, hpost⟩
  | runScheduled companyId asOf =>
    obtain ⟨s, period, hs⟩ := mem_scheduledPlan hplan hp
    rw [hs.posting_eq] at hptype
    cases hptype
  | catalog | submit | decide | cancel | rollover =>
    cases hplan
    cases hp

/-- A delivery of the event keeps it, and so does any operation that is no
payroll run. -/
theorem PaidByEvent.step (h : PaidByEvent dir event db.catalog db.ledger)
    (heffect : LedgerEffect dir db op db') (hop : op.IsPayroll → op = event.delivery) :
    PaidByEvent dir event db.catalog db'.ledger := by
  intro e he htype
  rcases heffect.payrollEntries hop e he htype with hold | ⟨-, _, _, _, _, v, rule, p, hpaid, hpost⟩
  · exact h e hold htype
  · exact ⟨v, rule, hpaid.paidFor hpost⟩

/-- A delivery that finds the credits of the version in force adds no second
credit. -/
theorem PaidOnce.step (honce : PaidOnce event.payrollRunId a db.ledger)
    (hpaid : PaidByEvent dir event db.catalog db.ledger) (heffect : LedgerEffect dir db op db')
    (hop : op.IsPayroll → op = event.delivery) (hsafe : CreditsSameVersion dir event a db op) :
    PaidOnce event.payrollRunId a db'.ledger := by
  have hpaid' := hpaid.step heffect hop
  -- a new credit is under the version in force, and every other credit is too
  have hforce : ∀ e ∈ db'.ledger.rows, e.CreditsPayroll event.payrollRunId a →
      e ∉ db.ledger.rows → ∃ v, db.catalog.versionEffectiveOn a.policyId event.periodEnd = some v ∧
        e.policyVersionId = v.id ∧
        ∀ f ∈ db.ledger.rows, f.CreditsPayroll event.payrollRunId a → f.policyVersionId = v.id := by
    intro e he hcredits hnew
    rcases heffect.payrollEntries hop e he hcredits.2.1 with
      hold | ⟨hdelivery, entry, hentry, employee, assignment, v, rule, p, hp, hpost⟩
    · exact absurd hold hnew
    have haccount : p.account = a := hpost.account.symm.trans hcredits.2.2.1
    rw [hp.posting_eq] at haccount
    subst haccount
    have hversion := (hp.paidFor hpost).version
    refine ⟨v, hp.inForce, hversion, hsafe hdelivery entry hentry rfl
      ⟨assignment, hp.covered, rfl⟩ v hp.inForce employee hp.known ?_⟩
    rw [hp.credits.1]
    exact hp.credits.2
  intro e he f hf hecredits hfcredits
  by_cases heold : e ∈ db.ledger.rows
  · by_cases hfold : f ∈ db.ledger.rows
    · exact honce e heold f hfold hecredits hfcredits
    · obtain ⟨v, hv, hfv, hothers⟩ := hforce f hf hfcredits hfold
      obtain ⟨_, _, h₁⟩ := hpaid' e he hecredits.2.1
      obtain ⟨_, _, h₂⟩ := hpaid' f hf hfcredits.2.1
      exact h₁.eq_of_version h₂ he hf hecredits hfcredits
        ((hothers e heold hecredits).trans hfv.symm)
  · obtain ⟨v, hv, hev, hothers⟩ := hforce e he hecredits heold
    obtain ⟨_, _, h₁⟩ := hpaid' e he hecredits.2.1
    obtain ⟨_, _, h₂⟩ := hpaid' f hf hfcredits.2.1
    refine h₁.eq_of_version h₂ he hf hecredits hfcredits (hev.trans ?_)
    by_cases hfold : f ∈ db.ledger.rows
    · exact (hothers f hfold hfcredits).symm
    · obtain ⟨w, hw, hfw, -⟩ := hforce f hf hfcredits hfold
      obtain rfl : v = w := Option.some.inj (hv.symm.trans hw)
      exact hfw.symm

/-- And one that credits under another version adds one. -/
theorem creditsSameVersion_of_paidOnce (hpaid : PaidByEvent dir event db.catalog db.ledger)
    (hstep : Step dir db op db') (hop : op.IsPayroll → op = event.delivery)
    (honce : PaidOnce event.payrollRunId a db'.ledger) : CreditsSameVersion dir event a db op := by
  rintro rfl entry hentry hemployee ⟨assignment, hcovered, hpolicy⟩ v hv employee hknown hcredits e
    he hecredits
  have heffect := effect_of_step hstep
  have hpaid' := hpaid.step heffect.onLedger hop
  have hkept := heffect.onLedger.subset he
  rw [← hpolicy] at hv
  rw [← hemployee] at hcovered hknown
  obtain ⟨rule, p, hp⟩ : ∃ rule p, PaidOut db.catalog dir event.companyId event.payrollRunId
      event.periodEnd entry.1 entry.2 employee assignment v rule p :=
    PaidOut.exists_of_credits hcovered hknown hv hcredits
  -- the ledger holds a credit with the source of the delivery's
  have hkey : Table.Has db'.ledger p.credit.key := by
    cases heffect with
    | onPayrollProcessed hplan => exact Db.has_credit_postAccruals (hp.mem_plan hentry hplan)
  rw [hp.posting_eq] at hkey
  obtain ⟨f, hf, hfkey⟩ := List.mem_map.mp hkey
  obtain ⟨hfsource, hfid⟩ := Prod.mk.inj hfkey
  obtain ⟨w, rule', hfpaid⟩ := hpaid' f hf hfsource
  obtain ⟨hfcredit, hfemployee, hfrule⟩ := hfpaid.of_source hfid
  -- so it is the only one, and its rule is one of the version in force
  obtain ⟨hmem, hvpolicy⟩ := hp.stored
  obtain ⟨employee', hemployee', hselected⟩ := hfpaid.selected
  have hversion : w = v := Catalog.version_eq_of_rule hfpaid.stored hmem
    (selectedRule_spec hselected).1 hp.listed hfrule
  have hfaccount : f.account = a := by
    show Account.mk f.employeeId f.policyId = a
    rw [hfpaid.policy, hversion, hvpolicy, hpolicy, hfemployee, hemployee]
  have hfcredits : f.CreditsPayroll event.payrollRunId a := by
    refine ⟨hfcredit, hfsource, hfaccount, rule.id, ?_⟩
    rw [← hemployee]
    exact hfid
  rw [honce e hkept f hf hecredits hfcredits, hfpaid.version, hversion]

end runs

/-- When the only payroll run delivered is one event, an account is credited for
it once in every state exactly when no redelivery credits it under another
version than the one that is paid. -/
theorem paid_once_iff {dir : Directory} {event : PayrollEvent} {a : Account}
    {l : List (Db × Op × Db)} {db₀ db : Db} (h : Run dir db₀ l db)
    (hevent : ∀ x ∈ l, x.2.1.IsPayroll → x.2.1 = event.delivery)
    (hfresh : ∀ e ∈ db₀.ledger.rows, e.sourceType ≠ .PAYROLL_ACCRUAL) :
    (∀ x ∈ l, PaidOnce event.payrollRunId a x.2.2.ledger) ↔
      ∀ x ∈ l, CreditsSameVersion dir event a x.1 x.2.1 := by
  have hrun := h.restrict (P := fun op => op.IsPayroll → op = event.delivery) hevent
  refine hrun.guard_iff (G := fun db => PaidOnce event.payrollRunId a db.ledger)
    (fun db => PaidByEvent dir event db.catalog db.ledger) ⟨?_, ?_⟩ ?_ ?_
  · intro e he htype
    exact absurd htype (hfresh e he)
  · intro e he _ _ hcredits
    exact absurd hcredits.2.1 (hfresh e he)
  · rintro db op db' ⟨hpaid, honce⟩ hsafe ⟨hstep, hop⟩
    have heffect := effect_of_step hstep
    refine ⟨fun e he htype => ?_, honce.step hpaid heffect.onLedger hop hsafe⟩
    obtain ⟨v, rule, he⟩ := hpaid.step heffect.onLedger hop e he htype
    exact ⟨v, rule, he.mono heffect.grows⟩
  · rintro db op db' ⟨hpaid, -⟩ ⟨hstep, hop⟩ honce
    exact creditsSameVersion_of_paidOnce hpaid hstep hop honce

namespace Demo

/-- Ada's eight hours of January 30. -/
def januaryRun : PayrollEvent where
  companyId := "cmp_warp_demo"
  payrollRunId := "run-1"
  periodEnd := ofYmd 2026 1 31
  minutesByEmployee := .singleton ("emp_ada", 480)

/-- Ada earns two hours for every hour of work. -/
def doubleHourly (day : Date) : Op :=
  .catalog (.updatePolicy policyId nextVersionId none { effectiveFrom := day, kind := .ACCRUAL }
    [{ method := .HOURS_WORKED, amount := 2, unit := .HOUR, perMinutesWorked := some 60
       id := nextRuleId }])

/-- The payroll run, an edit of the policy, and the payroll run again. -/
def payEditPay (day : Date) : Except Error (Db × List (Db × Op × Db) × Db) := do
  let (_, start) ← Op.runAll directory hourly .empty
  let (l, finish) ← Op.runAll directory
    [januaryRun.delivery, doubleHourly day, januaryRun.delivery] start
  return (start, l, finish)

theorem payEditPay_ok {day : Date} {start finish : Db} {l : List (Db × Op × Db)}
    (h : payEditPay day = .ok (start, l, finish)) :
    Reachable directory start ∧ Run directory start l finish ∧
      ∀ x ∈ l, x.2.1 = januaryRun.delivery ∨ x.2.1.UpdatesPolicy := by
  obtain ⟨⟨l₀, db⟩, hstart, h⟩ := Except.bind_eq_ok.mp h
  obtain ⟨⟨l₁, db₁⟩, hl, h⟩ := Except.bind_eq_ok.mp h
  cases h
  refine ⟨⟨l₀, run_of_runAll hstart⟩, run_of_runAll hl, fun x hx => ?_⟩
  have hop : x.2.1 ∈ [januaryRun.delivery, doubleHourly day, januaryRun.delivery] := by
    rw [← ops_of_runAll hl]
    exact List.mem_map_of_mem hx
  simp only [List.mem_cons, List.not_mem_nil, or_false] at hop
  rcases hop with hop | hop | hop
  · exact Or.inl hop
  · rw [hop]
    exact Or.inr trivial
  · exact Or.inl hop

end Demo

/-- An edit from January 15 on, made after January is paid, pays January
again. -/
theorem paid_twice :
    ¬ ∀ (dir : Directory) (event : PayrollEvent) (a : Account) (l : List (Db × Op × Db))
      (db₀ db : Db), Reachable dir db₀ → Run dir db₀ l db →
      (∀ x ∈ l, x.2.1 = event.delivery ∨ x.2.1.UpdatesPolicy) →
      (∀ e ∈ db₀.ledger.rows, e.sourceType ≠ .PAYROLL_ACCRUAL) →
      PaidOnce event.payrollRunId a db.ledger := by
  intro hclaim
  have hrun : (Demo.payEditPay (ofYmd 2026 1 15)).passes (fun r =>
      (∀ e ∈ r.1.ledger.rows, e.sourceType ≠ .PAYROLL_ACCRUAL) ∧
        ∃ e ∈ r.2.2.ledger.rows, ∃ f ∈ r.2.2.ledger.rows, e ≠ f ∧
          e.entryType = .ACCRUAL ∧ e.sourceType = .PAYROLL_ACCRUAL ∧ e.account = Demo.account ∧
          e.sourceId = payrollSource "run-1" "emp_ada" Demo.ruleId ∧
          f.entryType = .ACCRUAL ∧ f.sourceType = .PAYROLL_ACCRUAL ∧ f.account = Demo.account ∧
          f.sourceId = payrollSource "run-1" "emp_ada" Demo.nextRuleId) = true := by
    decide +kernel
  obtain ⟨⟨start, l, finish⟩, hr, htest⟩ := Except.ok_of_passes hrun
  obtain ⟨hfresh, e, he, f, hf, hne, he₁, he₂, he₃, he₄, hf₁, hf₂, hf₃, hf₄⟩ :=
    of_decide_eq_true htest
  obtain ⟨hreach, hl, hops⟩ := Demo.payEditPay_ok hr
  have honce := hclaim Demo.directory Demo.januaryRun Demo.account l start finish hreach hl hops
    hfresh
  exact hne (honce e he f hf ⟨he₁, he₂, he₃, _, he₄⟩ ⟨hf₁, hf₂, hf₃, _, hf₄⟩)

/-- An edit from February on leaves January paid once. -/
theorem paid_once_before_edit :
    ∃ db₀ l db, Reachable Demo.directory db₀ ∧ Run Demo.directory db₀ l db ∧
      ∀ x ∈ l, PaidOnce "run-1" Demo.account x.2.2.ledger := by
  have hrun : (Demo.payEditPay (ofYmd 2026 2 1)).passes (fun r =>
      (∀ e ∈ r.1.ledger.rows, e.sourceType ≠ .PAYROLL_ACCRUAL) ∧
        ∀ x ∈ r.2.1, ∀ v ∈ x.1.catalog.versionEffectiveOn Demo.policyId (ofYmd 2026 1 31),
          ∀ e ∈ x.1.ledger.rows, e.policyVersionId = v.id) = true := by
    decide +kernel
  obtain ⟨⟨start, l, finish⟩, hr, htest⟩ := Except.ok_of_passes hrun
  obtain ⟨hfresh, hversion⟩ := of_decide_eq_true htest
  obtain ⟨hreach, hl, hops⟩ := Demo.payEditPay_ok hr
  refine ⟨start, l, finish, hreach, hl,
    (@paid_once_iff Demo.directory Demo.januaryRun Demo.account l start finish hl
      (fun x hx hpayroll => ?_) hfresh).mpr ?_⟩
  · rcases hops x hx with hop | hop
    · exact hop
    · exfalso
      cases hx' : x.2.1 with
      | catalog op =>
        rw [hx'] at hpayroll
        exact hpayroll
      | submit | decide | cancel | runScheduled | onPayrollProcessed | rollover =>
        rw [hx'] at hop
        exact hop
  · intro x hx _ entry _ _ _ v hv employee _ _ e he _
    exact hversion x hx v hv e he

end TimeOff
