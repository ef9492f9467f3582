import TimeOff.Accrual.Floor
import TimeOff.Accrual.Payroll
import TimeOff.Requests.Events
import TimeOff.Requests.Expansion

/-!
# Every entry has its reason

The ledger is the source of truth, so each of its entries should say what it is
for. `LedgerEntry.Reason` has one constructor for each of the seven reasons there
are, and ties the whole entry to it:

- every reason names the operation of the run that wrote the entry, and the state
  this operation met (`LedgerEntry.Written`);
- a credit is the posting of a rule of the version that the job applied
  (`Posting.Earned`): the rule, its amount, the date, the employee and the source
  are those of the posting. A cap loss is what did not fit of such a posting on the
  ledger it met, and the credit's own source is taken;
- the legs of a closing are those of an account with the balance that the rollover
  met; debits and reversals are legs of a stored request.

The proof goes along the run: what an operation posts has its reason
(`Posted.reason`), and a reason stays one while the run goes on
(`LedgerEntry.Reason.later`). All of it together is **`ledger_explained`**.
-/

namespace TimeOff

open Gregorian AccrualService

/-! ## Operations of a run -/

/-- The state after operations were tried in turn. -/
def Op.triedAll (dir : Directory) (ops : List Op) : Db := ops.foldl (Op.tried dir) .empty

theorem Op.triedAll_snoc (dir : Directory) (ops : List Op) (op : Op) :
    Op.triedAll dir (ops ++ [op]) = Op.tried dir (Op.triedAll dir ops) op := by
  unfold Op.triedAll
  rw [List.foldl_append]
  rfl

/-- In the run `ops`, the operation `op` meets the state `db` and writes the
entry. -/
structure LedgerEntry.Written (dir : Directory) (ops : List Op) (db : Db) (op : Op)
    (e : LedgerEntry) : Prop where
  meets : ∃ before, before ++ [op] <+: ops ∧ db = Op.triedAll dir before
  new : e ∉ db.ledger.rows
  written : e ∈ (Op.tried dir db op).ledger.rows

theorem LedgerEntry.Written.mono {dir : Directory} {ops ops' : List Op} {db : Db} {op : Op}
    {e : LedgerEntry} (h : e.Written dir ops db op) (hops : ops <+: ops') :
    e.Written dir ops' db op := by
  obtain ⟨before, hbefore, hdb⟩ := h.meets
  exact ⟨⟨before, hbefore.trans hops, hdb⟩, h.new, h.written⟩

/-! ## Reasons

What each entry is to be explained by. The posting, the closing or the request
is part of the reason, so the rule, the amount, the date, the account and the
source of an entry are determined by it. -/

/-- The entry names the version, one of its policy that had begun by its date. -/
structure LedgerEntry.Names (c : Catalog) (e : LedgerEntry) (v : PolicyVersion) : Prop where
  stored : v ∈ c.versions.rows
  id_eq : v.id = e.policyVersionId
  policy : v.policyId = e.policyId
  begun : v.effectiveFrom ≤ e.effectiveDate

/-- A posting that an accrual job makes by a rule of the version `v`: for a period
of a scheduled rule, or for the minutes worked in a payroll period. -/
inductive Posting.Earned (dir : Directory) (c : Catalog) (v : PolicyVersion) :
    Posting → Op → Prop
  | scheduled {companyId : String} {asOf : Date} {s : RuleScope} {period : Period}
      (h : Scheduled c dir companyId asOf s period (s.posting period)) (hversion : s.version = v)
      (hmethod : s.rule.method = .TIME) (hamount : 0 < s.amount period) :
      Earned dir c v (s.posting period) (.runScheduled companyId asOf)
  | worked {companyId payrollRunId : String} {periodEnd : Date}
      {minutesByEmployee : MinutesByEmployee} {employeeId : String} {minutesWorked amount : Int}
      {employee : Employee} {assignment : PolicyAssignment} {rule : AccrualRule}
      (hminutes : (employeeId, minutesWorked) ∈ minutesByEmployee.rows)
      (h : PaidOut c dir companyId payrollRunId periodEnd employeeId minutesWorked employee
        assignment v rule (payrollPosting companyId payrollRunId periodEnd employeeId minutesWorked
          assignment v rule amount))
      (hmethod : rule.method = .HOURS_WORKED)
      (hearned : payrollAmount minutesWorked rule.amount rule.unit rule.perMinutesWorked
        employee.workMinutesPerDay = .ok amount)
      (hamount : amount ≠ 0) :
      Earned dir c v (payrollPosting companyId payrollRunId periodEnd employeeId minutesWorked
        assignment v rule amount) (.onPayrollProcessed companyId payrollRunId periodEnd
          minutesByEmployee)

/-- When a rollover comes to the assignment `x`, with `balance` in its account on
the closing day, the version in force there is `v`, and it keeps balances. -/
structure RolloverService.Closes (companyId : String) (day : Date) (db : Db) (x : PolicyAssignment)
    (v : PolicyVersion) (balance : Int) : Prop where
  covered : ∃ done rest, db.catalog.assignmentsCovering companyId none day = done ++ x :: rest ∧
    balance = (db.closeAccounts companyId day done).ledger.balance ⟨x.employeeId, x.policyId⟩
      (some day)
  inForce : db.catalog.versionEffectiveOn x.policyId day = some v
  keeps : v.kind ≠ .UNLIMITED

/-- Why an entry that names the version `v` is in the ledger after the run `ops`. -/
inductive LedgerEntry.Reason (dir : Directory) (ops : List Op) (v : PolicyVersion)
    (e : LedgerEntry) : Prop
  | scheduled {db : Db} {asOf : Date} {p : Posting}
      (hop : e.Written dir ops db (.runScheduled e.companyId asOf))
      (hearned : p.Earned dir db.catalog v (.runScheduled e.companyId asOf))
      (he : e = p.credit) (hamount : 0 < e.amountMinutes)
  | worked {db : Db} {payrollRunId : String} {minutesByEmployee : MinutesByEmployee} {p : Posting}
      (hop : e.Written dir ops db (.onPayrollProcessed e.companyId payrollRunId e.effectiveDate
        minutesByEmployee))
      (hearned : p.Earned dir db.catalog v (.onPayrollProcessed e.companyId payrollRunId
        e.effectiveDate minutesByEmployee))
      (he : e = p.credit) (hamount : e.amountMinutes ≠ 0)
  | capped {db : Db} {op : Op} {done rest : List Posting} {p : Posting}
      (hop : e.Written dir ops db op) (hearned : p.Earned dir db.catalog v op)
      (hplan : op.postings dir db.catalog = .ok (done ++ p :: rest))
      (he : p.loss ((db.postAccruals done).ledger.balance p.account (some p.effectiveDate))
        = some e)
      (hamount : e.amountMinutes < 0)
      -- the credit is there, or its source was taken by an earlier one
      (hcredit : p.credit ∈ (Op.triedAll dir ops).ledger.rows ∨
        ∃ f ∈ (db.postAccruals done).ledger.rows, f.key = p.credit.key ∧ f.entryType = .ACCRUAL)
  | expired {db : Db} {asOf : Date} {x : PolicyAssignment} {balance : Int}
      (hop : e.Written dir ops db (.rollover e.companyId asOf))
      (hcloses : RolloverService.Closes e.companyId (RolloverService.closingDay asOf) db x v
        balance)
      (he : e ∈ RolloverService.closingEntries e.companyId x v (RolloverService.closingDay asOf)
        balance)
      (htype : e.entryType = .EXPIRATION)
      (hrule : v.expiresAtPeriodEnd = true ∨ v.carryoverCapMinutes.isSome)
      (hamount : 0 < balance ∧ e.amountMinutes = -balance)
      (hday : e.effectiveDate = (ofYmd asOf.year 1 1).addDays (-1))
  | carried {db : Db} {asOf : Date} {x : PolicyAssignment} {balance : Int}
      (hop : e.Written dir ops db (.rollover e.companyId asOf))
      (hcloses : RolloverService.Closes e.companyId (RolloverService.closingDay asOf) db x v
        balance)
      (he : e ∈ RolloverService.closingEntries e.companyId x v (RolloverService.closingDay asOf)
        balance)
      (htype : e.entryType = .CARRYOVER) (hrule : v.expiresAtPeriodEnd = false)
      (hamount : 0 < e.amountMinutes)
      (hcap : ∃ cap ∈ v.carryoverCapMinutes, e.amountMinutes = min balance cap)
      (hday : e.effectiveDate = ofYmd asOf.year 1 1)
  | taken {db : Db} {actor : Employee} {note : Option String} {r : TimeOffRequest}
      (hop : e.Written dir ops db (.decide actor r.id true note))
      (hr : r ∈ (Op.triedAll dir ops).requests.rows) (he : e ∈ r.debits)
      (hstatus : r.status = .APPROVED ∨ r.status = .CANCELLED) (hamount : e.amountMinutes < 0)
  | returned {db : Db} {actor : Employee} {today : Date} {r : TimeOffRequest}
      (hop : e.Written dir ops db (.cancel actor r.id today))
      (hr : r ∈ (Op.triedAll dir ops).requests.rows) (he : e ∈ r.reversals)
      (hstatus : r.status = .CANCELLED) (hamount : 0 < e.amountMinutes)

def LedgerExplained (dir : Directory) (ops : List Op) : Prop :=
  ∀ e ∈ (Op.triedAll dir ops).ledger.rows,
    ∃ v, e.Names (Op.triedAll dir ops).catalog v ∧ e.Reason dir ops v

/-! ## What requests froze

A request keeps the version and the days it was submitted with, so what its
entries rest on can be read off the row at any later time. -/

/-- The version of a request had begun when the request starts, and its days lie
in its range. -/
structure TimeOffRequest.Frozen (c : Catalog) (r : TimeOffRequest) : Prop where
  version : ∃ v ∈ c.versions.rows, v.id = r.policyVersionId ∧ v.policyId = r.policyId ∧
    v.effectiveFrom ≤ r.startDate
  days : ∀ d ∈ r.days, r.startDate ≤ d.date ∧ d.date ≤ r.endDate ∧ 0 < d.minutes

def RequestsFrozen (db : Db) : Prop := ∀ r ∈ db.requests.rows, r.Frozen db.catalog

namespace TimeOffRequest.Frozen

variable {c d : Catalog} {r : TimeOffRequest} {leg : Leg}

theorem grows (h : r.Frozen c) (hcd : c.Grows d) : r.Frozen d := by
  obtain ⟨v, hv, hversion⟩ := h.version
  exact ⟨⟨v, hcd.subset hv, hversion⟩, h.days⟩

theorem update (h : r.Frozen c) (u : RequestUpdate) : (r.update u).Frozen c :=
  ⟨h.version, h.days⟩

/-- The version had begun by the date of every leg. -/
theorem names (h : r.Frozen c) {e : LedgerEntry} (hleg : leg ∈ legs r.days)
    (hversion : e.policyVersionId = r.policyVersionId) (hpolicy : e.policyId = r.policyId)
    (hdate : e.effectiveDate = leg.date) : ∃ v, e.Names c v := by
  obtain ⟨v, hv, hid, hvpolicy, hbegun⟩ := h.version
  obtain ⟨⟨day, hday, hdated⟩, -, -⟩ := mem_legs hleg
  refine ⟨v, hv, hid.trans hversion.symm, hvpolicy.trans hpolicy.symm, ?_⟩
  rw [hdate, ← hdated]
  exact le_trans hbegun (h.days day hday).1

end TimeOffRequest.Frozen

/-- What a submission stores is frozen. -/
theorem RequestService.Resolves.frozen {dir : Directory} {fields : RequestFields} {db : Db}
    {r : RequestService.Resolved} (h : RequestService.Resolves dir fields db r) (id : Uuid)
    (actorId reason : String) :
    (RequestService.newRequest id actorId reason fields r).Frozen db.catalog := by
  obtain ⟨employee, -, -, hdays⟩ := h.employee
  obtain ⟨-, -, hpos⟩ := requestDays_spec employee.work_positive hdays
  obtain ⟨-, hmem⟩ := mem_of_requestDays hdays
  obtain ⟨hv, hpolicy, hbegun, -⟩ := Catalog.versionEffectiveOn_spec h.version
  refine ⟨⟨r.version, hv, rfl, hpolicy, hbegun⟩, fun d hd => ?_⟩
  obtain ⟨hqualifies, -⟩ := (hmem d).mp hd
  exact ⟨hqualifies.1, hqualifies.2.1, hpos d hd⟩

theorem Effect.requestsFrozen {dir : Directory} {db db' : Db} {op : Op} (h : Effect dir db op db')
    (hfrozen : RequestsFrozen db) : RequestsFrozen db' := by
  intro s hs
  rcases h.row_cases hs with hold | ⟨r, hr, u, rfl⟩ | ⟨id, actorId, reason, fields, r, hres, rfl⟩
  · exact (hfrozen s hold).grows h.grows
  · exact ((hfrozen r hr).grows h.grows).update u
  · exact (hres.frozen id actorId reason).grows h.grows

/-! ## Legs of stored requests

An entry under the id of a request is a leg of it: its days are frozen, so the
legs can be computed from the row at any later time. -/

/-- Days with minutes make legs with minutes. -/
theorem MinutesByYear.pos_addDay {totals : MinutesByYear} {day : RequestDay}
    (hday : 0 < day.minutes) (h : ∀ entry ∈ totals.rows, 0 < entry.2) :
    ∀ entry ∈ (totals.addDay day).rows, 0 < entry.2 := by
  intro entry hentry
  obtain ⟨old, hold, rfl⟩ := Table.mem_modify.mp hentry
  rcases Table.mem_insertNew hold with hmem | ⟨rfl, -⟩
  · have hpos := h old hmem
    split
    · show 0 < old.2 + day.minutes
      omega
    · exact hpos
  · rw [if_pos rfl]
    show 0 < 0 + day.minutes
    omega

theorem legs_pos {days : List RequestDay} (h : ∀ day ∈ days, 0 < day.minutes) :
    ∀ leg ∈ legs days, 0 < leg.minutes := by
  have hfold : ∀ totals : MinutesByYear, (∀ entry ∈ totals.rows, 0 < entry.2) →
      ∀ entry ∈ (days.foldl MinutesByYear.addDay totals).rows, 0 < entry.2 := by
    induction days with
    | nil => exact fun totals htotals => htotals
    | cons day days ih =>
      intro totals htotals
      have hday := h day (List.mem_cons_self ..)
      exact ih (fun d hd => h d (List.mem_cons_of_mem _ hd)) _
        (MinutesByYear.pos_addDay hday htotals)
  intro leg hleg
  have hmem : (leg.year, leg.minutes) ∈ (minutesByYear days).rows := by
    rw [← legs_eq]
    exact List.mem_map_of_mem hleg
  exact hfold .empty (fun entry hentry => absurd hentry List.not_mem_nil) _ hmem

section legs

variable {dir : Directory} {db : Db} {r : TimeOffRequest} {e : LedgerEntry}

/-- A debit in the ledger is that of an approved request, or of one cancelled
since. -/
theorem LegsPosted.status_of_debit (hlegs : LegsPosted db) (hin : e ∈ db.ledger.rows)
    (hr : r ∈ db.requests.rows) (he : e ∈ r.debits) :
    r.status = .APPROVED ∨ r.status = .CANCELLED := by
  obtain ⟨leg, hleg, rfl⟩ := List.mem_map.mp he
  obtain ⟨s, hs, hstatus, year, hsource⟩ := hlegs.debit _ hin rfl
  obtain ⟨hid, -⟩ := legSource_inj hsource
  obtain rfl := Table.eq_of_key hr hs hid
  exact hstatus

/-- A reversal in the ledger is that of a cancelled request. -/
theorem LegsPosted.status_of_reversal (hlegs : LegsPosted db) (hin : e ∈ db.ledger.rows)
    (hr : r ∈ db.requests.rows) (he : e ∈ r.reversals) : r.status = .CANCELLED := by
  obtain ⟨leg, hleg, rfl⟩ := List.mem_map.mp he
  obtain ⟨s, hs, hstatus, year, hsource⟩ := hlegs.reversal _ hin rfl
  obtain ⟨hid, -⟩ := legSource_inj hsource
  obtain rfl := Table.eq_of_key hr hs hid
  exact hstatus

/-- A debit names the version its request froze, and takes something. -/
theorem RequestsFrozen.debit (h : RequestsFrozen db) (hr : r ∈ db.requests.rows)
    (he : e ∈ r.debits) : (∃ v, e.Names db.catalog v) ∧ e.amountMinutes < 0 := by
  obtain ⟨leg, hleg, rfl⟩ := List.mem_map.mp he
  have hpos := legs_pos (fun d hd => ((h r hr).days d hd).2.2) leg hleg
  refine ⟨(h r hr).names (e := r.debit leg) hleg rfl rfl rfl, ?_⟩
  show -leg.minutes < 0
  omega

/-- A reversal names it too, and gives something back. -/
theorem RequestsFrozen.reversal (h : RequestsFrozen db) (hr : r ∈ db.requests.rows)
    (he : e ∈ r.reversals) : (∃ v, e.Names db.catalog v) ∧ 0 < e.amountMinutes := by
  obtain ⟨leg, hleg, rfl⟩ := List.mem_map.mp he
  have hpos := legs_pos (fun d hd => ((h r hr).days d hd).2.2) leg hleg
  exact ⟨(h r hr).names (e := r.reversal leg) hleg rfl rfl rfl, hpos⟩

theorem TimeOffRequest.Continues.debits_eq {r r' : TimeOffRequest} (h : r.Continues r') :
    r'.debits = r.debits := by
  rw [h.frozen]
  rfl

theorem TimeOffRequest.Continues.reversals_eq {r r' : TimeOffRequest} (h : r.Continues r') :
    r'.reversals = r.reversals := by
  rw [h.frozen]
  rfl

end legs

/-! ## Credits

The plan of a job gives each of its postings a rule, and the rule a version. The
loss of a posting stands beside its credit, because a credit is inserted first
and only another credit can have its source. -/

section credits

variable {dir : Directory} {c d : Catalog} {db : Db} {op : Op} {ps : List Posting} {p : Posting}
  {e : LedgerEntry} {v : PolicyVersion}

/-- The version of a scheduled posting is in force on the day of the credit, so it
has begun. -/
theorem AccrualService.Scheduled.begun_le {companyId : String} {asOf : Date} {s : RuleScope}
    {period : Period} (h : Scheduled c dir companyId asOf s period p) :
    s.version.effectiveFrom ≤ s.effective period := by
  obtain ⟨-, hactive, -⟩ := RuleScope.decision_eq_some h.decision
  obtain ⟨hv, -⟩ := Catalog.mem_versionsOf.mp h.stored
  obtain ⟨w, hinforce, hid⟩ := Option.map_eq_some_iff.mp hactive
  obtain ⟨hstored, -, hfrom, -⟩ := Catalog.versionEffectiveOn_spec hinforce
  have hfound := Catalog.version_eq_some.mpr ⟨hv, rfl⟩
  obtain rfl : w = s.version :=
    Option.some.inj ((Catalog.version_eq_some.mpr ⟨hstored, hid⟩).symm.trans hfound)
  exact hfrom

/-- Every posting of a job is earned by a rule of some version. -/
theorem earned_of_postings (hvalid : ∀ v ∈ c.versions.rows, v.Valid)
    (h : op.postings dir c = .ok ps) (hp : p ∈ ps) : ∃ v, p.Earned dir c v op := by
  cases op with
  | runScheduled companyId asOf =>
    obtain ⟨s, period, hs⟩ := mem_scheduledPlan h hp
    have hnonneg := hs.amount_nonneg hvalid
    obtain ⟨rfl, -, -, hne⟩ := RuleScope.decision_eq_some hs.decision
    exact ⟨s.version, .scheduled hs rfl (ruleScope_eq_some hs.scope).1
      (lt_of_le_of_ne hnonneg (Ne.symm hne))⟩
  | onPayrollProcessed companyId payrollRunId periodEnd minutesByEmployee =>
    obtain ⟨⟨employeeId, minutesWorked⟩, hentry, employee, assignment, version, rule, hpaid⟩ :=
      mem_payrollPlan h hp
    obtain ⟨hmethod, hamount, hne, -⟩ := payrollDecision_eq_some hpaid.decision
    have hposting := hpaid.posting_eq
    generalize p.amount = amount at hamount hne hposting
    subst hposting
    exact ⟨version, .worked hentry hpaid hmethod hamount hne⟩
  | catalog | submit | decide | cancel | rollover =>
    cases h
    cases hp

namespace Posting.Earned

/-- Whatever an earned posting posts names the version of its rule. -/
theorem names (h : p.Earned dir c v op) (hposts : p.Posts e) (hgrows : c.Grows d) :
    e.Names d v := by
  have hfields : v ∈ c.versions.rows ∧ v.id = p.policyVersionId ∧ v.policyId = p.policyId ∧
      v.effectiveFrom ≤ p.effectiveDate := by
    cases h with
    | scheduled h hversion =>
      subst hversion
      obtain ⟨hv, hpolicy⟩ := Catalog.mem_versionsOf.mp h.stored
      exact ⟨hv, rfl, hpolicy, h.begun_le⟩
    | worked hminutes h =>
      obtain ⟨hv, hpolicy, hbegun, -⟩ := Catalog.versionEffectiveOn_spec h.inForce
      exact ⟨hv, rfl, hpolicy, hbegun⟩
  obtain ⟨hv, hid, hpolicy, hbegun⟩ := hfields
  rcases hposts with rfl | ⟨cap, hcap, forfeited, hpos, rfl⟩ <;>
    exact ⟨hgrows.subset hv, hid, hpolicy, hbegun⟩

/-- The credit of an earned posting has its reason. -/
theorem reason_credit {ops : List Op} (h : p.Earned dir db.catalog v op)
    (hop : p.credit.Written dir ops db op) : p.credit.Reason dir ops v := by
  cases h with
  | @scheduled companyId asOf s period h hversion hmethod hamount =>
    obtain ⟨-, -, hs⟩ := ruleScope_eq_some h.scope
    have hcompany : (s.posting period).credit.companyId = companyId :=
      congrArg RuleScope.companyId hs
    rw [← hcompany] at hop h
    exact .scheduled hop (.scheduled h hversion hmethod hamount) rfl hamount
  | worked hminutes h hmethod hearned hamount =>
    exact .worked hop (.worked hminutes h hmethod hearned hamount) rfl hamount

end Posting.Earned

/-- An accrual job's entry with a source of its own is a credit. -/
def CreditsAccrue (ledger : Ledger) : Prop :=
  ∀ f ∈ ledger.rows, f.sourceType.IsAccrual → (∀ s, f.sourceId ≠ s ++ ":forfeiture") →
    f.entryType = .ACCRUAL

theorem CreditsAccrue.postAccruals (h : CreditsAccrue db.ledger) (ps : List Posting) :
    CreditsAccrue (db.postAccruals ps).ledger := by
  intro f hf htype hplain
  rcases Db.mem_postAccruals hf with hold | ⟨done, p, rest, rfl, he⟩
  · exact h f hold htype hplain
  · rcases p.posts_of_mem he with rfl | ⟨cap, -, forfeited, -, rfl⟩
    · rfl
    · exact absurd rfl (hplain p.sourceId)

theorem CreditsAccrue.step {db' : Db} (h : CreditsAccrue db.ledger)
    (heffect : LedgerEffect dir db op db') : CreditsAccrue db'.ledger := by
  cases heffect with
  | accrual ps hplan hledger =>
    rw [hledger]
    exact h.postAccruals ps
  | other es hes hledger =>
    intro f hf htype hplain
    rw [hledger] at hf
    rcases Db.mem_posts hf with hold | hnew
    · exact h f hold htype hplain
    · exact absurd htype (hes f hnew)

/-- Beside a cap loss stands the credit of its posting, unless the source of the
credit had been taken before: by a credit, too. -/
theorem credit_of_loss {db' : Db} {done rest : List Posting} (hcredits : CreditsAccrue db.ledger)
    (hplan : op.postings dir db.catalog = .ok (done ++ p :: rest))
    (hledger : db'.ledger = (db.postAccruals (done ++ p :: rest)).ledger) :
    p.credit ∈ db'.ledger.rows ∨
      ∃ f ∈ (db.postAccruals done).ledger.rows, f.key = p.credit.key ∧ f.entryType = .ACCRUAL := by
  by_cases hhas : Table.Has (db.postAccruals done).ledger p.credit.key
  · obtain ⟨f, hf, hkey⟩ := List.mem_map.mp hhas
    obtain ⟨htype, hid⟩ := Prod.mk.inj hkey
    have hissued := issued_of_postings hplan (List.mem_append_right _ (List.mem_cons_self ..))
    refine Or.inr ⟨f, hf, hkey, hcredits.postAccruals done f hf (htype ▸ hissued.sourceType) ?_⟩
    intro s hs
    exact hissued.plain s (hid.symm.trans hs)
  · refine Or.inl ?_
    rw [hledger, Db.postAccruals_append, Db.postAccruals_cons]
    refine Db.subset_postAccruals rest _ ?_
    rw [Db.postAccrual_eq_posts, Db.posts_cons]
    refine Db.subset_posts _ _ ?_
    rw [Db.post_ledger, Table.rows_insertNew hhas]
    exact List.mem_append_right _ (List.mem_singleton.mpr rfl)

end credits

/-! ## Closings -/

section closings

variable {dir : Directory} {ops : List Op} {db : Db} {e : LedgerEntry}

/-- The legs of a closing have their reasons. -/
theorem RolloverService.Closes.reason {companyId : String} {asOf : Date} {x : PolicyAssignment}
    {v : PolicyVersion} {balance : Int}
    (h : RolloverService.Closes companyId (RolloverService.closingDay asOf) db x v balance)
    (hvalid : ∀ v ∈ db.catalog.versions.rows, v.Valid)
    (hop : e.Written dir ops db (.rollover companyId asOf))
    (he : e ∈ RolloverService.closingEntries companyId x v (RolloverService.closingDay asOf)
      balance)
    {c : Catalog} (hgrows : db.catalog.Grows c) : e.Names c v ∧ e.Reason dir ops v := by
  obtain ⟨hstored, hpolicy, hbegun, -⟩ := Catalog.versionEffectiveOn_spec h.inForce
  have hnext : (RolloverService.closingDay asOf).addDays 1 = ofYmd asOf.year 1 1 := by
    apply Date.ordinal_injective
    show (ofYmd asOf.year 1 1).ordinal + -1 + 1 = _
    omega
  have hmem := he
  by_cases hbalance : balance ≤ 0
  · rw [RolloverService.closingEntries_of_nonpos hbalance] at he
    cases he
  cases hcarried : carriedMinutes balance v.carryoverCapMinutes v.expiresAtPeriodEnd with
  | none =>
    rw [RolloverService.closingEntries_of_none hcarried] at he
    cases he
  | some carried =>
  have hnonneg := Db.carriedMinutes_nonneg (hvalid v hstored) (not_le.mp hbalance) hcarried
  rw [RolloverService.closingEntries_eq (not_le.mp hbalance) hcarried] at he
  simp only [carriedMinutes] at hcarried
  rcases List.mem_cons.mp he with rfl | he
  · -- the balance expires, whatever is carried over
    refine ⟨⟨hgrows.subset hstored, rfl, hpolicy, hbegun⟩,
      .expired hop h hmem rfl ?_ ⟨not_le.mp hbalance, rfl⟩ rfl⟩
    split at hcarried
    · next hexpires => exact Or.inl hexpires
    · obtain ⟨cap, hcap, -⟩ := Option.map_eq_some_iff.mp hcarried
      exact Or.inr (Option.isSome_of_mem hcap)
  · split at he
    · next hne =>
      obtain rfl := List.mem_singleton.mp he
      split at hcarried
      · next hexpires => exact absurd (Option.some.inj hcarried).symm hne
      · next hexpires =>
        obtain ⟨cap, hcap, rfl⟩ := Option.map_eq_some_iff.mp hcarried
        refine ⟨⟨hgrows.subset hstored, rfl, hpolicy, ?_⟩,
          .carried hop h hmem rfl (Bool.eq_false_iff.mpr hexpires)
            (lt_of_le_of_ne hnonneg (Ne.symm hne)) ⟨cap, hcap, rfl⟩ hnext⟩
        -- a carryover is dated the day after, still under the version of the old year
        refine le_trans hbegun (Date.le_iff.mpr ?_)
        show _ ≤ (RolloverService.closingDay asOf).ordinal + 1
        omega
    · cases he

end closings

/-! ## Along a run

The invariant of a sequence of operations: each entry has a reason in what was
done so far, and later operations keep the reasons that there are. -/

/-- What explains the entries of a ledger after a run. -/
structure Explanations (dir : Directory) (ops : List Op) : Prop where
  valid : ∀ v ∈ (Op.triedAll dir ops).catalog.versions.rows, v.Valid
  frozen : RequestsFrozen (Op.triedAll dir ops)
  legs : LegsPosted (Op.triedAll dir ops)
  credits : CreditsAccrue (Op.triedAll dir ops).ledger
  explained : LedgerExplained dir ops

section step

variable {dir : Directory} {ops ops' : List Op} {op : Op} {e : LedgerEntry} {v : PolicyVersion}

theorem LedgerEntry.Names.grows {c d : Catalog} (h : e.Names c v) (hgrows : c.Grows d) :
    e.Names d v :=
  ⟨hgrows.subset h.stored, h.id_eq, h.policy, h.begun⟩

/-- What an operation posts has its reason afterwards. -/
theorem Posted.reason {db : Db} (h : Posted dir db op e)
    (heffect : Effect dir db op (Op.triedAll dir ops))
    (hvalid : ∀ v ∈ db.catalog.versions.rows, v.Valid) (hcredits : CreditsAccrue db.ledger)
    (hfrozen : RequestsFrozen (Op.triedAll dir ops)) (hlegs : LegsPosted (Op.triedAll dir ops))
    (hop : e.Written dir ops db op) (hin : e ∈ (Op.triedAll dir ops).ledger.rows) :
    ∃ v, e.Names (Op.triedAll dir ops).catalog v ∧ e.Reason dir ops v := by
  cases h with
  | @accrual done rest p hplan he =>
    have hp : p ∈ done ++ p :: rest := List.mem_append_right _ (List.mem_cons_self ..)
    obtain ⟨v, hearned⟩ := earned_of_postings hvalid hplan hp
    refine ⟨v, hearned.names (p.posts_of_mem he) heffect.grows, ?_⟩
    rcases List.mem_cons.mp he with rfl | he
    · exact hearned.reason_credit hop
    -- a cap loss: the credit it belongs to went in just before, or its source was taken
    have hloss := Option.mem_toList.mp he
    obtain ⟨cap, hcap, hlt, heq⟩ := Posting.loss_eq_some hloss
    have hsource : e.sourceType.IsAccrual := by
      rw [heq]
      exact (issued_of_postings hplan hp).sourceType
    refine .capped hop hearned hplan hloss ?_ ?_
    · rw [heq]
      show -(_ - cap) < 0
      omega
    · cases heffect.onLedger with
      | accrual ps hplan' hledger =>
        obtain rfl : ps = done ++ p :: rest := Except.ok.inj (hplan'.symm.trans hplan)
        exact credit_of_loss hcredits hplan hledger
      | other es hes hledger =>
        rw [hledger] at hin
        rcases Db.mem_posts hin with hold | hnew
        · exact absurd hold hop.new
        · exact absurd hsource (hes e hnew)
  | @debit actor note r hdecide hr he =>
    -- the request as it is after the step has the same days, so the same legs
    obtain ⟨r', hr', hcont⟩ := heffect.onRequests.requestsContinue _ hr
    rw [← hcont.debits_eq] at he
    obtain ⟨⟨v, hnames⟩, hamount⟩ := hfrozen.debit hr' he
    rw [hdecide, ← hcont.id_eq] at hop
    exact ⟨v, hnames, .taken hop hr' he (hlegs.status_of_debit hin hr' he) hamount⟩
  | @reversal actor today r hcancel hr he =>
    obtain ⟨r', hr', hcont⟩ := heffect.onRequests.requestsContinue _ hr
    rw [← hcont.reversals_eq] at he
    obtain ⟨⟨v, hnames⟩, hamount⟩ := hfrozen.reversal hr' he
    rw [hcancel, ← hcont.id_eq] at hop
    exact ⟨v, hnames, .returned hop hr' he (hlegs.status_of_reversal hin hr' he) hamount⟩
  | @closing companyId asOf done rest x v hrollover hx hv hkind he =>
    rw [hrollover] at hop
    have hcloses : RolloverService.Closes companyId (RolloverService.closingDay asOf) db x v _ :=
      ⟨⟨done, rest, hx, rfl⟩, hv, hkind⟩
    exact ⟨v, hcloses.reason hvalid hop he heffect.grows⟩

/-- A reason stays one, while its request may be decided. -/
theorem LedgerEntry.Reason.later (h : e.Reason dir ops v) (hops : ops <+: ops')
    (hsubset : (Op.triedAll dir ops).ledger.rows ⊆ (Op.triedAll dir ops').ledger.rows)
    (hcontinue : (Op.triedAll dir ops).RequestsContinue (Op.triedAll dir ops'))
    (hlegs : LegsPosted (Op.triedAll dir ops')) (hin : e ∈ (Op.triedAll dir ops').ledger.rows) :
    e.Reason dir ops' v := by
  cases h with
  | scheduled hop hearned he hamount => exact .scheduled (hop.mono hops) hearned he hamount
  | worked hop hearned he hamount => exact .worked (hop.mono hops) hearned he hamount
  | capped hop hearned hplan he hamount hcredit =>
    exact .capped (hop.mono hops) hearned hplan he hamount (hcredit.imp_left (hsubset ·))
  | expired hop hcloses he htype hrule hamount hday =>
    exact .expired (hop.mono hops) hcloses he htype hrule hamount hday
  | carried hop hcloses he htype hrule hamount hcap hday =>
    exact .carried (hop.mono hops) hcloses he htype hrule hamount hcap hday
  | taken hop hr he hstatus hamount =>
    obtain ⟨r', hr', hcont⟩ := hcontinue _ hr
    rw [← hcont.debits_eq] at he
    rw [← hcont.id_eq] at hop
    exact .taken (hop.mono hops) hr' he (hlegs.status_of_debit hin hr' he) hamount
  | returned hop hr he hstatus hamount =>
    obtain ⟨r', hr', hcont⟩ := hcontinue _ hr
    rw [← hcont.reversals_eq] at he
    rw [← hcont.id_eq] at hop
    exact .returned (hop.mono hops) hr' he (hlegs.status_of_reversal hin hr' he) hamount

theorem Explanations.nil : Explanations dir [] where
  valid := fun _ h => absurd h List.not_mem_nil
  frozen := fun _ h => absurd h List.not_mem_nil
  legs := legsPosted_empty
  credits := fun _ h => absurd h List.not_mem_nil
  explained := fun _ h => absurd h List.not_mem_nil

/-- An operation that is rejected changes no state, and one that is accepted
explains what it posts. -/
theorem Explanations.snoc (h : Explanations dir ops) (op : Op) :
    Explanations dir (ops ++ [op]) := by
  have hafter := Op.triedAll_snoc dir ops op
  have hops : ops <+: ops ++ [op] := List.prefix_append ..
  unfold Op.tried at hafter
  cases hrun : op.run dir (Op.triedAll dir ops) with
  | error err =>
    rw [hrun] at hafter
    dsimp only at hafter
    refine ⟨hafter ▸ h.valid, hafter ▸ h.frozen, hafter ▸ h.legs, hafter ▸ h.credits, ?_⟩
    intro e he
    have hin := he
    rw [hafter] at he ⊢
    obtain ⟨v, hnames, hreason⟩ := h.explained e he
    exact ⟨v, hnames, hreason.later hops (hafter ▸ List.Subset.refl _)
      (.of_eq (congrArg Db.requests hafter)) (hafter ▸ h.legs) hin⟩
  | ok db' =>
    rw [hrun] at hafter
    dsimp only at hafter
    have heffect : Effect dir (Op.triedAll dir ops) op (Op.triedAll dir (ops ++ [op])) := by
      rw [hafter]
      exact effect_of_step hrun
    have hgrows := heffect.grows
    have hfrozen := heffect.requestsFrozen h.frozen
    have hlegs := h.legs.step heffect.onRequests
    refine ⟨hgrows.valid h.valid, hfrozen, hlegs, h.credits.step heffect.onLedger, ?_⟩
    intro e he
    by_cases hold : e ∈ (Op.triedAll dir ops).ledger.rows
    · obtain ⟨v, hnames, hreason⟩ := h.explained e hold
      exact ⟨v, hnames.grows hgrows, hreason.later hops heffect.onLedger.subset
        heffect.onRequests.requestsContinue hlegs he⟩
    · have hposted := (heffect.posted e he).resolve_left hold
      have hop : e.Written dir (ops ++ [op]) (Op.triedAll dir ops) op :=
        ⟨⟨ops, List.prefix_rfl, rfl⟩, hold, Op.triedAll_snoc dir ops op ▸ he⟩
      exact hposted.reason heffect h.valid h.credits hfrozen hlegs hop he

end step

/-- **Every entry has its reason**: in every state that operations, accepted or
rejected, lead to, each ledger entry names a version of its policy that had begun
by its date, and it is

- the credit of a posting that an accrual job of the run made by one of the
  version's rules: by the scheduled job for a period, or by the payroll job for the
  minutes an employee worked;
- the loss at the version's cap of such a posting, of what did not fit on the
  ledger it met, with the credit in the ledger or its source taken by an earlier
  credit;
- a leg of a year's closing under the version's carryover rules, for the balance
  that the rollover met;
- or a leg of a request that the run approved, or cancelled afterwards. -/
theorem ledger_explained (dir : Directory) (ops : List Op) : LedgerExplained dir ops := by
  have h : Explanations dir ops := by
    induction ops using List.reverseRecOn with
    | nil => exact .nil
    | append_singleton ops op ih => exact ih.snoc op
  exact h.explained

end TimeOff
