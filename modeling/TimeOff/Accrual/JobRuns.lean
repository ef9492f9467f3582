import TimeOff.Accrual.Postings

/-!
# What the job runs report

A job records how many ledger entries it created. Over any run of the
application these reports add up: for every company and every kind of job, the
created entries its runs report are the entries of that kind in the ledger
(**`job_runs_audited`**), whatever was replayed, refused or skipped as a
duplicate in between.

The invariant is an equation between a sum over the job runs (`Db.reported`) and
a count over the ledger (`Db.created`). A job adds its own report and, of the
entries it posts, those whose sources were free; both are the same number
because all entries of a job are of its company and kind (`createdBy_scheduled`,
`createdBy_payroll`, `createdBy_closing`), so that each of them weighs one
(`sum_posts_const`). A request operation posts debits and reversals, which are
of no kind.
-/

namespace TimeOff

open Gregorian AccrualService

/-- The source type of what a job of the kind posts. -/
def JobKind.source : JobKind → SourceType
  | .SCHEDULED => .SCHEDULED_ACCRUAL
  | .PAYROLL => .PAYROLL_ACCRUAL
  | .ROLLOVER => .PERIOD_ROLLOVER

/-- The kinds of jobs post under source types of their own. -/
theorem JobKind.source_injective : Function.Injective JobKind.source := by
  intro a b h
  cases a <;> cases b <;> first | rfl | cases h

/-- The entries that a company's jobs of a kind report to have created. -/
def Db.reported (db : Db) (companyId : String) (kind : JobKind) : Int :=
  ((db.jobRuns.filter fun run => run.companyId = companyId ∧ run.kind = kind).map
    (·.entriesCreated)).sum

/-- The entry was created by a job of the kind, for the company. -/
def LedgerEntry.CreatedBy (companyId : String) (kind : JobKind) (e : LedgerEntry) : Prop :=
  e.companyId = companyId ∧ e.sourceType = kind.source

instance (companyId : String) (kind : JobKind) (e : LedgerEntry) :
    Decidable (e.CreatedBy companyId kind) :=
  inferInstanceAs (Decidable (_ ∧ _))

/-- The number of such entries in the ledger. -/
def Db.created (db : Db) (companyId : String) (kind : JobKind) : Int :=
  Table.sum db.ledger fun e => if e.CreatedBy companyId kind then 1 else 0

/-- What the jobs report is what the ledger has. -/
def JobRunsAudited (db : Db) : Prop :=
  ∀ companyId kind, db.reported companyId kind = db.created companyId kind

namespace Db

variable {db db' : Db} {r row : TimeOffRequest} {kind : PolicyKind} {approve : Bool}
  {u : RequestUpdate} {es : List LedgerEntry}

@[simp] theorem afterSubmit_jobRuns : (db.afterSubmit row kind).jobRuns = db.jobRuns := by
  unfold afterSubmit
  dsimp only
  split <;> rfl

@[simp] theorem afterDecide_jobRuns : (db.afterDecide r approve kind u).jobRuns = db.jobRuns := by
  have hdebits : ((db.ensureSnapshot r.account).afterDebits r approve kind).jobRuns
      = db.jobRuns := by
    unfold afterDebits
    split
    · exact posts_jobRuns r.debits
    · rfl
  unfold afterDecide Stmt.setRequest release Stmt.setHold
  dsimp only
  split <;> exact hdebits

@[simp] theorem afterCancel_jobRuns : (db.afterCancel r u).jobRuns = db.jobRuns := by
  unfold afterCancel Stmt.setRequest release Stmt.setHold
  dsimp only
  split
  · rfl
  · exact posts_jobRuns r.reversals

/-- A decision posts debits, or nothing. -/
theorem exists_debits (db : Db) (r : TimeOffRequest) (approve : Bool) (kind : PolicyKind)
    (u : RequestUpdate) :
    ∃ es, (db.afterDecide r approve kind u).ledger = (db.posts es).ledger ∧
      ∀ e ∈ es, e.sourceType = .REQUEST := by
  rw [afterDecide_ledger]
  unfold afterDebits
  split
  · refine ⟨r.debits, rfl, fun e he => ?_⟩
    obtain ⟨leg, -, rfl⟩ := List.mem_map.mp he
    rfl
  · exact ⟨[], rfl, fun e he => absurd he List.not_mem_nil⟩

/-- A cancellation posts reversals, or nothing. -/
theorem exists_reversals (db : Db) (r : TimeOffRequest) (u : RequestUpdate) :
    ∃ es, (db.afterCancel r u).ledger = (db.posts es).ledger ∧
      ∀ e ∈ es, e.sourceType = .REQUEST_CANCELLATION := by
  rw [afterCancel_ledger]
  split
  · exact ⟨[], rfl, fun e he => absurd he List.not_mem_nil⟩
  · refine ⟨r.reversals, rfl, fun e he => ?_⟩
    obtain ⟨leg, -, rfl⟩ := List.mem_map.mp he
    rfl

/-- Entries of one weight count for as many as are new. -/
theorem sum_posts_const {w : LedgerEntry → Int} {n : Int} (hw : ∀ e ∈ es, w e = n) (db : Db) :
    Table.sum (db.posts es).ledger w
      = Table.sum db.ledger w + n * db.entriesAdded (db.posts es) := by
  induction es generalizing db with
  | nil =>
    rw [posts_nil, entriesAdded_self]
    omega
  | cons e es ih =>
    rw [posts_cons, ih fun f hf => hw f (List.mem_cons_of_mem _ hf), sum_post,
      ← entriesAdded_trans db (db.post e), entriesAdded_post, hw e (List.mem_cons_self ..)]
    split <;> ring

/-- The two sides of the equation read one table each. -/
theorem created_congr (h : db'.ledger = db.ledger) (companyId : String) (kind : JobKind) :
    db'.created companyId kind = db.created companyId kind := by
  unfold created
  rw [h]

theorem reported_congr (h : db'.jobRuns = db.jobRuns) (companyId : String) (kind : JobKind) :
    db'.reported companyId kind = db.reported companyId kind := by
  unfold reported
  rw [h]

/-- A report counts for its company and kind. -/
theorem reported_recordRun (run : JobRun) (companyId : String) (kind : JobKind) :
    (db.recordRun run).reported companyId kind
      = db.reported companyId kind
        + if run.companyId = companyId ∧ run.kind = kind then run.entriesCreated else 0 := by
  simp only [reported, recordRun]
  rw [List.filter_append, List.map_append, List.sum_append]
  refine congrArg (_ + ·) ?_
  by_cases h : run.companyId = companyId ∧ run.kind = kind <;> simp [h]

/-- A job that created the entries it posted. -/
theorem audited_recordRun (haudited : JobRunsAudited db) {companyId : String} {kind : JobKind}
    {sourceId : String} (hes : ∀ e ∈ es, e.CreatedBy companyId kind) :
    JobRunsAudited ((db.posts es).recordRun
      ⟨companyId, kind, sourceId, "SUCCESS", db.entriesAdded (db.posts es)⟩) := by
  intro company k
  rw [reported_recordRun, reported_congr (posts_jobRuns es), haudited company k]
  show db.created company k + _ = (db.posts es).created company k
  unfold created
  by_cases h : companyId = company ∧ kind = k
  · obtain ⟨rfl, rfl⟩ := h
    rw [sum_posts_const (fun e he => if_pos (hes e he)) db, if_pos ⟨rfl, rfl⟩, Int.one_mul]
  · have hother : ∀ e ∈ es, ¬ e.CreatedBy company k := fun e he hcreated => h
      ⟨(hes e he).1.symm.trans hcreated.1,
        JobKind.source_injective ((hes e he).2.symm.trans hcreated.2)⟩
    rw [sum_posts_eq fun e he => if_neg (hother e he), if_neg h, Int.add_zero]

/-- Requests create no such entries. -/
theorem audited_of_quiet (haudited : JobRunsAudited db) (hruns : db'.jobRuns = db.jobRuns)
    (hledger : db'.ledger = (db.posts es).ledger)
    (hes : ∀ e ∈ es, e.sourceType = .REQUEST ∨ e.sourceType = .REQUEST_CANCELLATION) :
    JobRunsAudited db' := by
  intro company k
  have hother : ∀ e ∈ es, ¬ e.CreatedBy company k := by
    intro e he hcreated
    have htype := hes e he
    rw [hcreated.2] at htype
    cases k <;> rcases htype with h | h <;> cases h
  rw [reported_congr hruns, haudited company k, created_congr hledger]
  exact (sum_posts_eq fun e he => if_neg (hother e he)).symm

end Db

/-! ## The entries of a job

All that a job posts has the source type of the job, and the audit row has the
count of what was inserted. Requests post entries of other types. -/

section entries

variable {dir : Directory} {cat : Catalog} {companyId : String} {ps : List Posting} {p : Posting}
  {e : LedgerEntry}

/-- Everything that a job posts is marked as created by it. -/
theorem createdBy_scheduled {asOf : Date} (h : scheduledPlan cat dir companyId asOf = .ok ps)
    (hp : p ∈ ps) (hposts : p.Posts e) : e.CreatedBy companyId .SCHEDULED := by
  have htype := hposts.sourceType.trans (sourceType_of_scheduledPlan h hp)
  obtain ⟨s, period, hs⟩ := mem_scheduledPlan h hp
  obtain ⟨-, -, hscope⟩ := ruleScope_eq_some hs.scope
  have hcompany : s.companyId = companyId := congrArg RuleScope.companyId hscope
  rw [hs.posting_eq] at hposts
  refine ⟨?_, htype⟩
  rcases hposts with rfl | ⟨_, _, _, _, rfl⟩ <;> exact hcompany

theorem createdBy_payroll {payrollRunId : String} {periodEnd : Date}
    {minutesByEmployee : MinutesByEmployee}
    (h : payrollPlan cat dir companyId payrollRunId periodEnd minutesByEmployee = .ok ps)
    (hp : p ∈ ps) (hposts : p.Posts e) : e.CreatedBy companyId .PAYROLL := by
  have htype := hposts.sourceType.trans (sourceType_of_payrollPlan h hp)
  obtain ⟨entry, -, employee, a, version, rule, hpaid⟩ := mem_payrollPlan h hp
  rw [(payrollDecision_eq_some hpaid.decision).2.2.2] at hposts
  refine ⟨?_, htype⟩
  rcases hposts with rfl | ⟨_, _, _, _, rfl⟩ <;> rfl

theorem createdBy_closing {periodEnd : Date} {x : PolicyAssignment} {v : PolicyVersion}
    {balance : Int} (h : e ∈ RolloverService.closingEntries companyId x v periodEnd balance) :
    e.CreatedBy companyId .ROLLOVER := by
  obtain ⟨entry, -, rfl⟩ := List.mem_map.mp h
  exact ⟨rfl, rfl⟩

/-- A job that goes through reports the entries its postings add. -/
theorem audited_jobResult {db db' : Db} {kind : JobKind} {sourceId : String}
    {plan : Except Error (List Posting)} {outcome : JobRun} (haudited : JobRunsAudited db)
    (hplan : ∀ ps, plan = .ok ps → ∀ p ∈ ps, ∀ e, p.Posts e → e.CreatedBy companyId kind)
    (h : jobResult companyId kind sourceId plan db = .ok (outcome, db')) : JobRunsAudited db' := by
  cases plan with
  | error e => cases h
  | ok ps =>
    cases h
    obtain ⟨es, heq, hes⟩ := Db.postAccruals_eq_posts ps db
    unfold jobRun
    rw [heq]
    refine Db.audited_recordRun haudited fun e he => ?_
    obtain ⟨p, hp, hposts⟩ := hes e he
    exact hplan ps rfl p hp e hposts

end entries

theorem JobRunsAudited.step {dir : Directory} {db db' : Db} {op : Op} (haudited : JobRunsAudited db)
    (h : Step dir db op db') : JobRunsAudited db' := by
  have heffect := effect_of_step h
  cases op with
  | catalog op =>
    cases heffect
    exact haudited
  | submit =>
    cases heffect with
    | submit =>
    -- requests post entries that no job counts
    have hes : ∀ e ∈ ([] : List LedgerEntry), e.sourceType = .REQUEST ∨
        e.sourceType = .REQUEST_CANCELLATION := fun e he => absurd he List.not_mem_nil
    exact Db.audited_of_quiet haudited Db.afterSubmit_jobRuns Db.afterSubmit_ledger hes
  | decide actor requestId approve note =>
    cases heffect with
    | @decide _ _ _ _ r v =>
    obtain ⟨es, hledger, hes⟩ := Db.exists_debits db r approve v.kind
      (RequestService.decision approve actor.id note)
    exact Db.audited_of_quiet haudited Db.afterDecide_jobRuns hledger fun e he => Or.inl (hes e he)
  | cancel actor requestId today =>
    cases heffect with
    | @cancel _ _ _ r =>
    obtain ⟨es, hledger, hes⟩ := Db.exists_reversals db r
      (RequestService.cancellation r.status actor.id)
    exact Db.audited_of_quiet haudited Db.afterCancel_jobRuns hledger fun e he => Or.inr (hes e he)
  | runScheduled companyId asOf =>
    obtain ⟨outcome, hrun⟩ := map_snd_eq_ok h
    rw [run_runScheduled] at hrun
    exact audited_jobResult haudited
      (fun ps hplan p hp e hposts => createdBy_scheduled hplan hp hposts) hrun
  | onPayrollProcessed companyId payrollRunId periodEnd minutesByEmployee =>
    obtain ⟨outcome, hrun⟩ := map_snd_eq_ok h
    rw [run_onPayrollProcessed] at hrun
    exact audited_jobResult haudited
      (fun ps hplan p hp e hposts => createdBy_payroll hplan hp hposts) hrun
  | rollover companyId asOf =>
    obtain ⟨outcome, hrun⟩ := map_snd_eq_ok h
    rw [RolloverService.run_run] at hrun
    dsimp only at hrun
    rw [Int.zero_add] at hrun
    cases hrun
    obtain ⟨es, heq, hes⟩ := Db.closeAccounts_eq_posts companyId (RolloverService.closingDay asOf)
      (db.catalog.assignmentsCovering companyId none (RolloverService.closingDay asOf)) db
    rw [heq]
    -- the run counts what it has posted
    refine Db.audited_recordRun haudited fun e he => ?_
    obtain ⟨x, -, v, balance, -, hclosing⟩ := hes e he
    exact createdBy_closing hclosing

theorem Reachable.jobRunsAudited {dir : Directory} {db : Db} (h : Reachable dir db) :
    JobRunsAudited db := by
  obtain ⟨l, hl⟩ := h
  exact hl.invariant (fun _ _ => rfl) fun haudited hstep => haudited.step hstep

/-- **The job history adds up**: whatever operations are tried in turn, the
entries that a company's runs of one kind of job report to have created are
exactly as many as the ledger has of that company and kind. -/
theorem job_runs_audited (dir : Directory) (ops : List Op) :
    JobRunsAudited (ops.foldl (Op.tried dir) .empty) :=
  (reachable_tried ⟨[], .nil⟩).jobRunsAudited

end TimeOff
