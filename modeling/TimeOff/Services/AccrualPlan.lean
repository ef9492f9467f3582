import TimeOff.Services.Accrual
import TimeOff.Services.Policies

/-!
# Accrual jobs as plans

Which postings a job makes depends on the catalog only, not on the ledger. So a
job run alone first works out a list of postings (`scheduledPlan`,
`payrollPlan`) and then makes them in turn (`run_runScheduled`,
`run_onPayrollProcessed`). The link between the loops and the lists is `Emits`,
with one lemma per way the loops are put together; what a plan contains is read
off by `mem_planFor`.

The statements that other modules use are of two kinds. `run_runScheduled` and
`run_onPayrollProcessed` replace a job by its plan and `Db.postAccruals`, so
that no later proof looks at the loops again. `Scheduled` and `PaidOut` list
everything that is known of a single posting of a plan, from the assignment and
the version down to the amount, the date and the source: `mem_scheduledPlan` and
`mem_payrollPlan` give one for each posting, and `Scheduled.mem_plan` is the
converse, that whatever meets the reasons is posted.

A loop that fails part of the way fails as a whole and nothing of it is kept, so
the plan of a job is an `Except`: it has postings only if every round has
(`ok_of_planFor`).
-/

namespace TimeOff

open Gregorian

/-! ## Postings on a database

What one posting does to a database, as a function: a credit, if its source is
free, and after it the loss that the cap takes. -/

namespace Db

/-- The database after `_post_accrual`. -/
def postAccrual (p : Posting) (db : Db) : Db :=
  match p.loss (db.ledger.balance p.account (some p.effectiveDate)) with
  | none => db.post p.credit
  | some e => (db.post p.credit).post e

/-- The database after several of them in turn. -/
def postAccruals (ps : List Posting) (db : Db) : Db := ps.foldl (fun db p => db.postAccrual p) db

@[simp] theorem postAccruals_nil (db : Db) : db.postAccruals [] = db := rfl

@[simp] theorem postAccruals_cons (p : Posting) (ps : List Posting) (db : Db) :
    db.postAccruals (p :: ps) = (db.postAccrual p).postAccruals ps := rfl

/-- Two lists of postings are made one after the other. -/
theorem postAccruals_append (ps qs : List Posting) (db : Db) :
    db.postAccruals (ps ++ qs) = (db.postAccruals ps).postAccruals qs :=
  List.foldl_append

/-- A posting leaves the catalog alone, so the rest of the plan stays what it is. -/
@[simp] theorem postAccrual_catalog (p : Posting) (db : Db) :
    (db.postAccrual p).catalog = db.catalog := by
  simp only [postAccrual]
  split <;> simp

@[simp] theorem postAccruals_catalog (ps : List Posting) (db : Db) :
    (db.postAccruals ps).catalog = db.catalog := by
  induction ps generalizing db with
  | nil => rfl
  | cons p ps ih => rw [postAccruals_cons, ih, postAccrual_catalog]

/-- A posting enters its credit, and the loss that the balance before it calls for. -/
theorem postAccrual_eq_posts (p : Posting) (db : Db) :
    db.postAccrual p
      = db.posts
          (p.credit :: (p.loss (db.ledger.balance p.account (some p.effectiveDate))).toList) := by
  simp only [postAccrual]
  cases p.loss (db.ledger.balance p.account (some p.effectiveDate)) <;> rfl

/-- Postings post credits and cap losses. -/
theorem postAccruals_eq_posts (ps : List Posting) (db : Db) :
    ∃ es, db.postAccruals ps = db.posts es ∧ ∀ e ∈ es, ∃ p ∈ ps, p.Posts e := by
  induction ps generalizing db with
  | nil => exact ⟨[], rfl, fun _ h => by cases h⟩
  | cons p ps ih =>
    obtain ⟨es, heq, hes⟩ := ih (db.postAccrual p)
    refine ⟨p.credit :: (p.loss (db.ledger.balance p.account (some p.effectiveDate))).toList ++ es,
      ?_, fun e he => ?_⟩
    · rw [postAccruals_cons, heq, posts_append, ← postAccrual_eq_posts]
    · rcases List.mem_append.mp he with he | he
      · exact ⟨p, List.mem_cons_self .., p.posts_of_mem he⟩
      · obtain ⟨q, hq, hpost⟩ := hes e he
        exact ⟨q, List.mem_cons_of_mem _ hq, hpost⟩

@[simp] theorem postAccruals_recordRun {ps : List Posting} {run : JobRun} {db : Db} :
    (db.recordRun run).postAccruals ps = (db.postAccruals ps).recordRun run := by
  induction ps generalizing db with
  | nil => rfl
  | cons p ps ih =>
    have hfirst : (db.recordRun run).postAccrual p = (db.postAccrual p).recordRun run := by
      rw [postAccrual_eq_posts, postAccrual_eq_posts]
      exact posts_recordRun
    rw [postAccruals_cons, hfirst, ih, postAccruals_cons]

end Db

namespace AccrualService

/-- `_post_accrual`, run alone, makes the posting and counts the entries that
are new. -/
theorem run_postAccrual (p : Posting) (db : Db) :
    Tx.run (postAccrual p) db = .ok (db.entriesAdded (db.postAccrual p), db.postAccrual p) := by
  simp only [postAccrual, Db.postAccrual, Posting.loss]
  refine (Tx.run_query (q := .balance p.account (some p.effectiveDate)) rfl).trans ?_
  refine (Program.exec_bind_of_ok (run_post p.credit db)).trans ?_
  cases hcap : p.maxBalanceMinutes with
  | none => rfl
  | some cap =>
    dsimp only [Option.bind_some]
    split
    · refine (Program.exec_bind_of_ok (run_post _ _)).trans ?_
      exact congrArg (fun n => Except.ok (n, _)) (Db.entriesAdded_trans _ _ _)
    · rfl

/-! ## Loops that post

A program emits a list of postings if, run alone, it makes them in that order
and returns the number of new entries. Loops, branches and reads of the catalog
are put together from programs that do, so each job has a plan that is read off
its program. -/

/-- On databases with catalog `cat`, the loop body `body` makes the postings of
`plan`, and counts the entries they add. -/
def Emits (cat : Catalog) (body : Int → Tx Int) (plan : Except Error (List Posting)) : Prop :=
  ∀ db created, db.catalog = cat →
    Tx.run (body created) db =
      match plan with
      | .ok ps => .ok (created + db.entriesAdded (db.postAccruals ps), db.postAccruals ps)
      | .error e => .error e

/-- The postings of a loop: those of its rounds, in turn. -/
def planFor {α : Type} (xs : List α) (plan : α → Except Error (List Posting)) :
    Except Error (List Posting) :=
  match xs with
  | [] => .ok []
  | x :: xs => do
    let ps ← plan x
    let qs ← planFor xs plan
    return ps ++ qs

/-- The postings of a loop are those of its rounds. -/
theorem mem_planFor {α : Type} {xs : List α} {plan : α → Except Error (List Posting)}
    {ps : List Posting} (h : planFor xs plan = .ok ps) (p : Posting) :
    p ∈ ps ↔ ∃ x ∈ xs, ∃ qs, plan x = .ok qs ∧ p ∈ qs := by
  induction xs generalizing ps with
  | nil =>
    cases h
    simp
  | cons x xs ih =>
    simp only [planFor] at h
    cases hx : plan x with
    | error e =>
      rw [hx] at h
      cases h
    | ok ps₁ =>
      cases hxs : planFor xs plan with
      | error e =>
        rw [hx, hxs] at h
        cases h
      | ok ps₂ =>
        rw [hx, hxs] at h
        cases h
        rw [List.mem_append, ih hxs]
        simp [hx]

/-- A loop has postings only if all its rounds do. -/
theorem ok_of_planFor {α : Type} {xs : List α} {plan : α → Except Error (List Posting)}
    {ps : List Posting} (h : planFor xs plan = .ok ps) {x : α} (hx : x ∈ xs) :
    ∃ qs, plan x = .ok qs := by
  induction xs generalizing ps with
  | nil => cases hx
  | cons y ys ih =>
    obtain ⟨qs, hy, h⟩ := Except.bind_eq_ok.mp h
    obtain ⟨rs, hys, -⟩ := Except.bind_eq_ok.mp h
    rcases List.mem_cons.mp hx with rfl | hx
    · exact ⟨qs, hy⟩
    · exact ih hys hx

/-- And they are enough. -/
theorem planFor_ok {α : Type} {xs : List α} {plan : α → Except Error (List Posting)}
    (h : ∀ x ∈ xs, ∃ qs, plan x = .ok qs) : ∃ ps, planFor xs plan = .ok ps := by
  induction xs with
  | nil => exact ⟨[], rfl⟩
  | cons x xs ih =>
    obtain ⟨qs, hx⟩ := h x (List.mem_cons_self ..)
    obtain ⟨rs, hxs⟩ := ih fun y hy => h y (List.mem_cons_of_mem _ hy)
    refine ⟨qs ++ rs, ?_⟩
    simp only [planFor]
    rw [hx, hxs]
    rfl

/-- The postings of a decision. -/
def planDecision (decision : Except Error (Option Posting)) : Except Error (List Posting) :=
  decision.map Option.toList

section emits

variable {cat : Catalog} {body : Int → Tx Int} {plan : Except Error (List Posting)}

/-- One lemma for each way a loop body is put together. -/
theorem emits_nothing : Emits cat (fun created => return created) (.ok []) := by
  intro db created _
  show Except.ok (created, db) = Except.ok (created + db.entriesAdded db, db)
  rw [Db.entriesAdded_self, Int.add_zero]

theorem emits_decision (decision : Except Error (Option Posting)) :
    Emits cat (fun created => postDecision created decision) (planDecision decision) := by
  intro db created hcat
  match decision with
  | .error e => rfl
  | .ok none => exact emits_nothing db created hcat
  | .ok (some p) => exact Program.exec_bind_of_ok (run_postAccrual p db)

theorem emits_loop {α : Type} {body : α → Int → Tx Int} {plan : α → Except Error (List Posting)}
    (xs : List α) (h : ∀ x, Emits cat (body x) (plan x)) :
    Emits cat (fun created => xs.foldlM (fun created x => body x created) created)
      (planFor xs plan) := by
  induction xs with
  | nil => exact emits_nothing
  | cons x xs ih =>
    intro db created hcat
    have hx := h x db created hcat
    simp only [planFor]
    rw [List.foldlM_cons]
    cases hplan : plan x with
    | error e =>
      rw [hplan] at hx
      exact Program.exec_bind_of_error hx
    | ok ps =>
      rw [hplan] at hx
      refine (Program.exec_bind_of_ok hx).trans ?_
      have hrest := ih (db.postAccruals ps) (created + db.entriesAdded (db.postAccruals ps))
        ((Db.postAccruals_catalog ps db).trans hcat)
      refine hrest.trans ?_
      cases planFor xs plan with
      | error e => rfl
      | ok qs =>
        dsimp only [pure, Except.pure, bind, Except.bind]
        rw [Db.postAccruals_append, Int.add_assoc, Db.entriesAdded_trans]

theorem emits_query {q : Query} {r : q.Answer} {body : q.Answer → Int → Tx Int}
    (hq : ∀ db, db.catalog = cat → q.run db = .ok r) (h : Emits cat (body r) plan) :
    Emits cat (fun created => Tx.query q >>= fun r => body r created) plan := by
  intro db created hcat
  exact (Tx.run_query (hq db hcat)).trans (h db created hcat)

theorem emits_lift {α : Type} {x : Except Error α} {body : α → Int → Tx Int}
    {plan : α → Except Error (List Posting)} (h : ∀ a, Emits cat (body a) (plan a)) :
    Emits cat (fun created => Tx.lift x >>= fun a => body a created) (x >>= plan) := by
  intro db created hcat
  cases x with
  | error e => rfl
  | ok a => exact h a db created hcat

end emits

/-! ## The scheduled job -/

/-- The postings of a period, of a rule and of an assignment, as the loops reach
them. -/
def RuleScope.periodPlan (s : RuleScope) (cat : Catalog) (period : Period) :
    Except Error (List Posting) :=
  if s.through < s.effective period then .ok []
  else planDecision
    (s.decision period (cat.versionEffectiveOn s.assignment.policyId (s.effective period)))

def rulePlan (cat : Catalog) (company : Company) (scope : Option RuleScope) :
    Except Error (List Posting) :=
  match scope with
  | none => .ok []
  | some s => do
    let periods ← iterPeriods s.first s.through s.frequency (some company.payPeriodAnchor)
    planFor periods (s.periodPlan cat)

def assignmentPlan (cat : Catalog) (dir : Directory) (companyId : String) (company : Company)
    (asOf : Date) (assignment : PolicyAssignment) : Except Error (List Posting) := do
  let employee ← dir.employee assignment.employeeId
  planFor (cat.versionsOf assignment.policyId) fun version =>
    planFor version.rules fun rule =>
      rulePlan cat company (ruleScope companyId asOf employee assignment version rule)

/-- The postings of a scheduled run. -/
def scheduledPlan (cat : Catalog) (dir : Directory) (companyId : String) (asOf : Date) :
    Except Error (List Posting) := do
  let company ← dir.company companyId
  planFor (cat.assignmentsBegun companyId asOf) (assignmentPlan cat dir companyId company asOf)

variable {cat : Catalog}

/-- The loops emit the plans that are named after them. -/
theorem emits_accruePeriod (s : RuleScope) (period : Period) :
    Emits cat (fun created => accruePeriod s created period) (s.periodPlan cat period) := by
  simp only [accruePeriod, RuleScope.periodPlan]
  split
  · exact emits_nothing
  · refine emits_query (r := cat.versionEffectiveOn s.assignment.policyId (s.effective period)) ?_
      (emits_decision _)
    rintro db rfl
    rfl

theorem emits_accrueRule (company : Company) (scope : Option RuleScope) :
    Emits cat (accrueRule company scope) (rulePlan cat company scope) := by
  match scope with
  | none => exact emits_nothing
  | some s => exact emits_lift fun periods => emits_loop periods (emits_accruePeriod s)

theorem emits_accrueAssignment (dir : Directory) (companyId : String) (company : Company)
    (asOf : Date) (assignment : PolicyAssignment) :
    Emits cat (fun created => accrueAssignment dir companyId company asOf created assignment)
      (assignmentPlan cat dir companyId company asOf assignment) := by
  refine emits_lift fun employee => ?_
  refine emits_query (r := cat.versionsOf assignment.policyId) ?_ ?_
  · rintro db rfl
    rfl
  · exact emits_loop _ fun version => emits_loop _ fun rule => emits_accrueRule company _

/-- The outcome of a job that made the postings `ps`. -/
def jobRun (companyId : String) (kind : JobKind) (sourceId : String) (ps : List Posting) (db : Db) :
    JobRun :=
  ⟨companyId, kind, sourceId, "SUCCESS", db.entriesAdded (db.postAccruals ps)⟩

/-- How a job with a given plan ends. -/
def jobResult (companyId : String) (kind : JobKind) (sourceId : String)
    (plan : Except Error (List Posting)) (db : Db) : Except Error (JobRun × Db) :=
  match plan with
  | .ok ps => .ok (jobRun companyId kind sourceId ps db,
      (db.postAccruals ps).recordRun (jobRun companyId kind sourceId ps db))
  | .error e => .error e

/-- A job is its loop and then the audit row. -/
theorem Emits.run_job {body : Int → Tx Int} {plan : Except Error (List Posting)}
    (h : Emits cat body plan) (companyId : String) (kind : JobKind) (sourceId : String) (db : Db)
    (hcat : db.catalog = cat) :
    Tx.run (body 0 >>= fun created => recordRun ⟨companyId, kind, sourceId, "SUCCESS", created⟩) db
      = jobResult companyId kind sourceId plan db := by
  have hrun := h db 0 hcat
  cases plan with
  | error e => exact Program.exec_bind_of_error hrun
  | ok ps =>
    dsimp only at hrun
    rw [Int.zero_add] at hrun
    exact Program.exec_bind_of_ok hrun

/-- Run alone, the scheduled job makes the postings of its plan. -/
theorem run_runScheduled (dir : Directory) (companyId : String) (asOf : Date) (db : Db) :
    Tx.run (runScheduled dir companyId asOf) db
      = jobResult companyId .SCHEDULED (isoformat asOf)
          (scheduledPlan db.catalog dir companyId asOf) db := by
  simp only [runScheduled, scheduledPlan]
  cases hcompany : dir.company companyId with
  | error e => rfl
  | ok company =>
    refine (Tx.run_query (q := .assignmentsBegun companyId asOf) rfl).trans ?_
    exact (emits_loop _ (emits_accrueAssignment dir companyId company asOf)).run_job companyId
      .SCHEDULED (isoformat asOf) db rfl

/-- A scheduled run that goes through has made the postings of its plan. -/
theorem runScheduled_ok {dir : Directory} {companyId : String} {asOf : Date} {db db' : Db}
    {outcome : JobRun} (h : Tx.run (runScheduled dir companyId asOf) db = .ok (outcome, db')) :
    ∃ ps, scheduledPlan db.catalog dir companyId asOf = .ok ps ∧
      outcome = jobRun companyId .SCHEDULED (isoformat asOf) ps db ∧
      db' = (db.postAccruals ps).recordRun outcome := by
  rw [run_runScheduled] at h
  cases hplan : scheduledPlan db.catalog dir companyId asOf with
  | error e =>
    rw [hplan] at h
    cases h
  | ok ps =>
    rw [hplan] at h
    cases h
    exact ⟨ps, rfl, rfl, rfl⟩

/-! ## The payroll job -/

/-- The postings of an employee's worked minutes under one assignment. -/
def creditPlan (cat : Catalog) (dir : Directory) (companyId payrollRunId : String)
    (periodEnd : Date) (employeeId : String) (minutesWorked : Int) (assignment : PolicyAssignment) :
    Except Error (List Posting) := do
  let employee ← dir.employee employeeId
  match cat.versionEffectiveOn assignment.policyId periodEnd with
  | none => .ok []
  | some version =>
    planFor version.rules fun rule => planDecision
      (payrollDecision companyId payrollRunId periodEnd employeeId minutesWorked employee assignment
        version rule)

/-- The postings of a payroll run. -/
def payrollPlan (cat : Catalog) (dir : Directory) (companyId payrollRunId : String)
    (periodEnd : Date) (minutesByEmployee : MinutesByEmployee) : Except Error (List Posting) :=
  planFor minutesByEmployee.rows fun entry =>
    planFor (cat.assignmentsCovering companyId (some entry.1) periodEnd)
      (creditPlan cat dir companyId payrollRunId periodEnd entry.1 entry.2)

/-- The loops of the payroll job emit their plans. -/
theorem emits_creditAssignment (dir : Directory) (companyId payrollRunId : String)
    (periodEnd : Date) (employeeId : String) (minutesWorked : Int)
    (assignment : PolicyAssignment) :
    Emits cat
      (fun created => creditAssignment dir companyId payrollRunId periodEnd employeeId minutesWorked
        created assignment)
      (creditPlan cat dir companyId payrollRunId periodEnd employeeId minutesWorked
        assignment) := by
  refine emits_lift fun employee => ?_
  refine emits_query (r := cat.versionEffectiveOn assignment.policyId periodEnd) ?_ ?_
  · rintro db rfl
    rfl
  · cases cat.versionEffectiveOn assignment.policyId periodEnd with
    | none => exact emits_nothing
    | some version => exact emits_loop _ fun rule => emits_decision _

theorem emits_creditEmployee (dir : Directory) (companyId payrollRunId : String)
    (periodEnd : Date) (entry : String × Int) :
    Emits cat
      (fun created => creditEmployee dir companyId payrollRunId periodEnd created entry)
      (planFor (cat.assignmentsCovering companyId (some entry.1) periodEnd)
        (creditPlan cat dir companyId payrollRunId periodEnd entry.1 entry.2)) := by
  refine emits_query (r := cat.assignmentsCovering companyId (some entry.1) periodEnd) ?_ ?_
  · rintro db rfl
    rfl
  · exact emits_loop _ (emits_creditAssignment dir companyId payrollRunId periodEnd entry.1 entry.2)

/-- Run alone, the payroll job makes the postings of its plan. -/
theorem run_onPayrollProcessed (dir : Directory) (companyId payrollRunId : String)
    (periodEnd : Date) (minutesByEmployee : MinutesByEmployee) (db : Db) :
    Tx.run (onPayrollProcessed dir companyId payrollRunId periodEnd minutesByEmployee) db
      = jobResult companyId .PAYROLL payrollRunId
          (payrollPlan db.catalog dir companyId payrollRunId periodEnd minutesByEmployee) db :=
  (emits_loop _ (emits_creditEmployee dir companyId payrollRunId periodEnd)).run_job companyId
    .PAYROLL payrollRunId db rfl

/-! ## What the plans contain

The reasons of a posting, collected from the branches it had to pass:
`Scheduled` for the scheduled job, `PaidOut` for payroll. What is proved of
postings later is proved from these. -/

/-- A decision to post is the only posting of its period. -/
theorem mem_planDecision {decision : Except Error (Option Posting)} {ps : List Posting}
    {p : Posting} (h : planDecision decision = .ok ps) (hp : p ∈ ps) : decision = .ok (some p) := by
  match decision with
  | .error e => cases h
  | .ok none =>
    cases h
    cases hp
  | .ok (some q) =>
    cases h
    rw [List.mem_singleton.mp hp]

/-- A decision to post: the version is in force on the credit date and the rule
is the one selected, with something to credit. -/
theorem RuleScope.decision_eq_some {s : RuleScope} {period : Period}
    {active : Option PolicyVersion} {p : Posting} (h : s.decision period active = .ok (some p)) :
    p = s.posting period ∧ active.map (·.id) = some s.version.id ∧
      (∃ selected, selectedRule (eligibleRules s.version .TIME
          (completedTenureMonths s.employee.startDate period.start)) = .ok selected ∧
        selected.id = s.rule.id) ∧
      s.amount period ≠ 0 := by
  simp only [decision] at h
  split at h
  · cases h
  next hactive =>
  obtain ⟨selected, hselected, h⟩ := Except.bind_eq_ok.mp h
  split at h
  · cases h
  next hid =>
  split at h
  · cases h
  next hamount =>
  cases h
  exact ⟨rfl, not_not.mp hactive, ⟨selected, hselected, not_not.mp hid⟩, hamount⟩

/-- And a rule that is selected posts. -/
theorem RuleScope.decision_of_selected {s : RuleScope} {period : Period}
    {active : Option PolicyVersion} (hactive : active.map (·.id) = some s.version.id)
    (hrule : selectedRule (eligibleRules s.version .TIME
      (completedTenureMonths s.employee.startDate period.start)) = .ok s.rule)
    (hamount : s.amount period ≠ 0) :
    s.decision period active = .ok (some (s.posting period)) := by
  simp only [decision]
  rw [if_neg (not_not.mpr hactive), hrule]
  show (if s.rule.id ≠ s.rule.id then _ else _) = _
  rw [if_neg (not_not.mpr rfl), if_neg hamount]

/-- The posting `p` comes from the period `period` of the rule scope `s`. -/
structure Scheduled (cat : Catalog) (dir : Directory) (companyId : String) (asOf : Date)
    (s : RuleScope) (period : Period) (p : Posting) : Prop where
  begun : s.assignment ∈ cat.assignmentsBegun companyId asOf
  known : dir.employee s.assignment.employeeId = .ok s.employee
  stored : s.version ∈ cat.versionsOf s.assignment.policyId
  listed : s.rule ∈ s.version.rules
  scope : ruleScope companyId asOf s.employee s.assignment s.version s.rule = some s
  iterated : ∃ company periods, dir.company companyId = .ok company ∧
    iterPeriods s.first s.through s.frequency (some company.payPeriodAnchor) = .ok periods ∧
    period ∈ periods
  due : s.effective period ≤ s.through
  decision : s.decision period
    (cat.versionEffectiveOn s.assignment.policyId (s.effective period)) = .ok (some p)

/-- A rule has a scope when it accrues by time and its range of dates is not empty. -/
theorem ruleScope_eq_some {companyId : String} {asOf : Date} {employee : Employee}
    {assignment : PolicyAssignment} {version : PolicyVersion} {rule : AccrualRule} {s : RuleScope}
    (h : ruleScope companyId asOf employee assignment version rule = some s) :
    rule.method = .TIME ∧ rule.frequency = some s.frequency ∧
      s = ⟨companyId, employee, assignment, version, rule, s.frequency,
        max employee.startDate assignment.effectiveFrom,
        min asOf (assignment.effectiveTo.getD asOf)⟩ := by
  simp only [ruleScope] at h
  split at h
  · next hmethod hfrequency =>
    cases h
    exact ⟨hmethod, hfrequency, rfl⟩
  · cases h

/-- The postings of a rule. -/
theorem scheduled_of_mem_rulePlan {dir : Directory} {companyId : String} {asOf : Date}
    {company : Company} {employee : Employee} {assignment : PolicyAssignment}
    {version : PolicyVersion} {rule : AccrualRule} {ps : List Posting} {p : Posting}
    (hcompany : dir.company companyId = .ok company)
    (hassignment : assignment ∈ cat.assignmentsBegun companyId asOf)
    (hemployee : dir.employee assignment.employeeId = .ok employee)
    (hversion : version ∈ cat.versionsOf assignment.policyId) (hrule : rule ∈ version.rules)
    (h : rulePlan cat company (ruleScope companyId asOf employee assignment version rule) = .ok ps)
    (hp : p ∈ ps) :
    ∃ s period, Scheduled cat dir companyId asOf s period p ∧ s.assignment = assignment ∧
      s.version = version ∧ s.rule = rule := by
  simp only [rulePlan] at h
  split at h
  · cases h
    cases hp
  next s hscope =>
  obtain ⟨periods, hperiods, h⟩ := Except.bind_eq_ok.mp h
  obtain ⟨period, hperiod, ps₁, h₁, hp₁⟩ := (mem_planFor h p).mp hp
  simp only [RuleScope.periodPlan] at h₁
  split at h₁
  · cases h₁
    cases hp₁
  next hdue =>
  have hdecision := mem_planDecision h₁ hp₁
  obtain ⟨-, -, hs⟩ := ruleScope_eq_some hscope
  rw [hs] at hscope hperiods hdue hdecision
  exact ⟨_, period, ⟨hassignment, hemployee, hversion, hrule, hscope,
    ⟨company, periods, hcompany, hperiods, hperiod⟩, not_lt.mp hdue, hdecision⟩, rfl, rfl, rfl⟩

/-- Every scheduled posting has its reasons. -/
theorem mem_scheduledPlan {dir : Directory} {companyId : String} {asOf : Date} {ps : List Posting}
    {p : Posting} (h : scheduledPlan cat dir companyId asOf = .ok ps) (hp : p ∈ ps) :
    ∃ s period, Scheduled cat dir companyId asOf s period p := by
  obtain ⟨company, hcompany, h⟩ := Except.bind_eq_ok.mp h
  obtain ⟨assignment, hassignment, ps₁, h₁, hp₁⟩ := (mem_planFor h p).mp hp
  obtain ⟨employee, hemployee, h₁⟩ := Except.bind_eq_ok.mp h₁
  obtain ⟨version, hversion, ps₂, h₂, hp₂⟩ := (mem_planFor h₁ p).mp hp₁
  obtain ⟨rule, hrule, ps₃, h₃, hp₃⟩ := (mem_planFor h₂ p).mp hp₂
  obtain ⟨s, period, hs, -⟩ :=
    scheduled_of_mem_rulePlan hcompany hassignment hemployee hversion hrule h₃ hp₃
  exact ⟨s, period, hs⟩

/-- A scheduled run makes every posting that has its reasons. -/
theorem Scheduled.mem_plan {dir : Directory} {companyId : String} {asOf : Date} {s : RuleScope}
    {period : Period} {ps : List Posting} {p : Posting}
    (h : Scheduled cat dir companyId asOf s period p)
    (hplan : scheduledPlan cat dir companyId asOf = .ok ps) : p ∈ ps := by
  obtain ⟨company, periods, hcompany, hperiods, hmem⟩ := h.iterated
  obtain ⟨company', hcompany', hplan⟩ := Except.bind_eq_ok.mp hplan
  obtain rfl : company = company' := by
    rw [hcompany] at hcompany'
    exact Except.ok.inj hcompany'
  -- the postings of each loop on the way to the period
  obtain ⟨ps₁, h₁⟩ := ok_of_planFor hplan h.begun
  obtain ⟨employee, hemployee, h₁'⟩ := Except.bind_eq_ok.mp h₁
  obtain rfl : s.employee = employee := Except.ok.inj (h.known.symm.trans hemployee)
  obtain ⟨ps₂, h₂⟩ := ok_of_planFor h₁' h.stored
  obtain ⟨ps₃, h₃⟩ := ok_of_planFor h₂ h.listed
  have h₃' := h₃
  rw [h.scope] at h₃'
  obtain ⟨periods', hperiods', h₃'⟩ := Except.bind_eq_ok.mp h₃'
  obtain rfl : periods = periods' := Except.ok.inj (hperiods.symm.trans hperiods')
  have h₄ : s.periodPlan cat period = .ok [p] := by
    simp only [RuleScope.periodPlan]
    rw [if_neg (not_lt.mpr h.due), h.decision]
    rfl
  -- and the posting in each of them
  have hp₃ : p ∈ ps₃ := (mem_planFor h₃' p).mpr ⟨period, hmem, [p], h₄, List.mem_singleton.mpr rfl⟩
  have hp₂ : p ∈ ps₂ := (mem_planFor h₂ p).mpr ⟨s.rule, h.listed, ps₃, h₃, hp₃⟩
  have hp₁ : p ∈ ps₁ := (mem_planFor h₁' p).mpr ⟨s.version, h.stored, ps₂, h₂, hp₂⟩
  exact (mem_planFor hplan p).mpr ⟨s.assignment, h.begun, ps₁, h₁, hp₁⟩

theorem Scheduled.posting_eq {dir : Directory} {companyId : String} {asOf : Date} {s : RuleScope}
    {period : Period} {p : Posting} (h : Scheduled cat dir companyId asOf s period p) :
    p = s.posting period :=
  (RuleScope.decision_eq_some h.decision).1

/-- The period of a scheduled posting is a calendar period that is not over when
the assignment and the version have both begun. -/
theorem Scheduled.period_spec {dir : Directory} {companyId : String} {asOf : Date} {s : RuleScope}
    {period : Period} {p : Posting} (h : Scheduled cat dir companyId asOf s period p) :
    ∃ company, dir.company companyId = .ok company ∧
      period = periodOf s.frequency company.payPeriodAnchor period.start ∧
      s.first ≤ period.finish ∧ period.start ≤ period.finish := by
  obtain ⟨company, periods, hcompany, hperiods, hmem⟩ := h.iterated
  obtain ⟨periods', hperiods', hspec⟩ :=
    mem_iterPeriods s.first s.through s.frequency company.payPeriodAnchor
  rw [hperiods] at hperiods'
  cases hperiods'
  obtain ⟨heq, hstart, -⟩ := (hspec period).mp hmem
  refine ⟨company, hcompany, heq, (start_le_start_iff heq).mp hstart, ?_⟩
  rw [heq]
  exact start_le_finish ..

/-- Valid rates never credit less than nothing. -/
theorem Scheduled.amount_nonneg {dir : Directory} {companyId : String} {asOf : Date} {s : RuleScope}
    {period : Period} {p : Posting} (h : Scheduled cat dir companyId asOf s period p)
    (hvalid : ∀ v ∈ cat.versions.rows, v.Valid) : 0 ≤ p.amount := by
  obtain ⟨company, -, -, hfirst, hperiod⟩ := h.period_spec
  have hrule := (hvalid s.version (Catalog.mem_versionsOf.mp h.stored).1).rules s.rule h.listed
  rw [h.posting_eq]
  exact scheduledAmount_nonneg hrule.1 (le_of_lt s.employee.work_positive) hperiod
    (le_trans (le_max_left _ _) hfirst)

/-- The posting `p` comes from a rule of the version in force at the end of a
payroll period. -/
structure PaidOut (cat : Catalog) (dir : Directory) (companyId payrollRunId : String)
    (periodEnd : Date) (employeeId : String) (minutesWorked : Int) (employee : Employee)
    (assignment : PolicyAssignment) (version : PolicyVersion) (rule : AccrualRule) (p : Posting) :
    Prop where
  covered : assignment ∈ cat.assignmentsCovering companyId (some employeeId) periodEnd
  known : dir.employee employeeId = .ok employee
  inForce : cat.versionEffectiveOn assignment.policyId periodEnd = some version
  listed : rule ∈ version.rules
  decision : payrollDecision companyId payrollRunId periodEnd employeeId minutesWorked employee
    assignment version rule = .ok (some p)

/-- Every payroll posting has its reasons too. -/
theorem mem_payrollPlan {dir : Directory} {companyId payrollRunId : String} {periodEnd : Date}
    {minutesByEmployee : MinutesByEmployee} {ps : List Posting} {p : Posting}
    (h : payrollPlan cat dir companyId payrollRunId periodEnd minutesByEmployee = .ok ps)
    (hp : p ∈ ps) :
    ∃ entry ∈ minutesByEmployee.rows, ∃ employee assignment version rule,
      PaidOut cat dir companyId payrollRunId periodEnd entry.1 entry.2 employee assignment version
        rule p := by
  obtain ⟨entry, hentry, ps₁, h₁, hp₁⟩ := (mem_planFor h p).mp hp
  obtain ⟨assignment, hassignment, ps₂, h₂, hp₂⟩ := (mem_planFor h₁ p).mp hp₁
  obtain ⟨employee, hemployee, h₂⟩ := Except.bind_eq_ok.mp h₂
  cases hversion : cat.versionEffectiveOn assignment.policyId periodEnd with
  | none =>
    rw [hversion] at h₂
    cases h₂
    cases hp₂
  | some version =>
    rw [hversion] at h₂
    obtain ⟨rule, hrule, ps₃, h₃, hp₃⟩ := (mem_planFor h₂ p).mp hp₂
    exact ⟨entry, hentry, employee, assignment, version, rule,
      ⟨hassignment, hemployee, hversion, hrule, mem_planDecision h₃ hp₃⟩⟩

/-- What the payroll job posts. -/
theorem payrollDecision_eq_some {companyId payrollRunId : String} {periodEnd : Date}
    {employeeId : String} {minutesWorked : Int} {employee : Employee}
    {assignment : PolicyAssignment} {version : PolicyVersion} {rule : AccrualRule} {p : Posting}
    (h : payrollDecision companyId payrollRunId periodEnd employeeId minutesWorked employee
      assignment version rule = .ok (some p)) :
    rule.method = .HOURS_WORKED ∧
      payrollAmount minutesWorked rule.amount rule.unit rule.perMinutesWorked
        employee.workMinutesPerDay = .ok p.amount ∧ p.amount ≠ 0 ∧
      p =
        { companyId := companyId
          employeeId := employeeId
          policyId := assignment.policyId
          policyVersionId := version.id
          effectiveDate := periodEnd
          sourceType := .PAYROLL_ACCRUAL
          sourceId := payrollSource payrollRunId employeeId rule.id
          amount := p.amount
          maxBalanceMinutes := version.maxBalanceMinutes
          note := s!"{minutesWorked} minutes worked" } := by
  simp only [payrollDecision] at h
  split at h
  · cases h
  next hmethod =>
  obtain ⟨selected, -, h⟩ := Except.bind_eq_ok.mp h
  split at h
  · cases h
  obtain ⟨amount, hamount, h⟩ := Except.bind_eq_ok.mp h
  split at h
  · cases h
  next hne =>
  cases h
  exact ⟨not_not.mp hmethod, hamount, hne, rfl⟩

/-- Worked minutes are credited, never taken. -/
theorem PaidOut.amount_nonneg {dir : Directory} {companyId payrollRunId : String} {periodEnd : Date}
    {employeeId : String} {minutesWorked : Int} {employee : Employee}
    {assignment : PolicyAssignment} {version : PolicyVersion} {rule : AccrualRule} {p : Posting}
    (h : PaidOut cat dir companyId payrollRunId periodEnd employeeId minutesWorked employee
      assignment version rule p) (hvalid : ∀ v ∈ cat.versions.rows, v.Valid)
    (hminutes : 0 ≤ minutesWorked) : 0 ≤ p.amount := by
  obtain ⟨-, hamount, -, -⟩ := payrollDecision_eq_some h.decision
  have hrule := (hvalid version (Catalog.versionEffectiveOn_spec h.inForce).1).rules rule h.listed
  cases hper : rule.perMinutesWorked with
  | none =>
    rw [hper] at hamount
    cases hamount
  | some per =>
    rw [hper] at hamount
    exact payrollAmount_nonneg hminutes hrule.1 (le_of_lt (hrule.2 per hper))
      (le_of_lt employee.work_positive) hamount

end AccrualService

end TimeOff
