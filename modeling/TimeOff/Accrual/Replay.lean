import TimeOff.Lib.Journal
import TimeOff.System

/-!
# Replaying an accrual job

Source keys make a second delivery of the same job skip its credits. The cap
loss of a credit has a key of its own and is worked out again from a balance
that now contains the credit, so a replay can still post losses. A ledger is
read as a journal (`Ledger.journal`), on which jobs enter capped credits
(`journal_postAccruals`); there the library says exactly which replays are
harmless.

The journal of a ledger forgets everything but the sources and the balances.
Nothing is lost by that: postings that leave the journal as it was add no entry
(`unchanged_iff_journal`), because an entry that is added takes a source.

A first delivery leaves the catalog alone, so a second one has the same plan and
goes through. That it is a no-op becomes the statement of the library about
entering the same credits twice, and its condition `Settles` is read on the
state before the first: once the credits are entered, each loss is recorded or
the amount would fit a second time.
-/

namespace TimeOff

open Gregorian

/-! ## Ledgers as journals

The ledger under the journal's words: an item for each entry, a credit for each
posting. Sources are source keys, and the loss of a posting has the companion key. -/

/-- An entry as an item of a journal. -/
def LedgerEntry.item (e : LedgerEntry) : Journal.Item SourceKey Account Date :=
  ⟨e.key, e.account, e.effectiveDate, e.amountMinutes⟩

/-- A posting as a capped credit. -/
def Posting.toCredit (p : Posting) : Journal.Credit SourceKey Account Date where
  source := p.credit.key
  lossSource := p.lossKey
  account := p.account
  date := p.effectiveDate
  amount := p.amount
  cap := p.maxBalanceMinutes

namespace Posting

variable {p : Posting} {before : Int}

/-- Without a loss, nothing exceeds the cap. -/
theorem excess_of_loss_eq_none (h : p.loss before = none) : p.toCredit.excess before = 0 :=
  Journal.excess_eq_zero_iff.mpr (loss_eq_none_iff.mp h)

/-- A loss is the excess, under the source of the loss. -/
theorem item_of_loss_eq_some {e : LedgerEntry} (h : p.loss before = some e) :
    p.toCredit.excess before ≠ 0 ∧ e.item = p.toCredit.lossItem (p.toCredit.excess before) := by
  obtain ⟨cap, hcap, hlt, rfl⟩ := loss_eq_some h
  have hexcess : p.toCredit.excess before = before + p.amount - cap := by
    simp only [Journal.Credit.excess]
    rw [show p.toCredit.cap = some cap from hcap]
    show max (before + p.amount - cap) 0 = _
    omega
  rw [hexcess]
  exact ⟨by omega, rfl⟩

end Posting

/-- What a ledger says. -/
def Ledger.journal (ledger : Ledger) : Journal SourceKey Account Date where
  recorded k := Table.Has ledger k
  asOf a d := ledger.balance a (some d)

instance (ledger : Ledger) (c : Journal.Credit SourceKey Account Date) :
    Decidable (ledger.journal.Settled c) :=
  inferInstanceAs (Decidable (∀ cap ∈ c.cap,
    Table.Has ledger c.lossSource ∨ ledger.balance c.account (some c.date) + c.amount ≤ cap))

/-- Inserting into the ledger is entering into the journal. -/
theorem Ledger.journal_insertNew (ledger : Ledger) (e : LedgerEntry) :
    Ledger.journal (Table.insertNew ledger e) = ledger.journal.enter e.item := by
  by_cases h : Table.Has ledger e.key
  · rw [Journal.enter_of_recorded (x := e.item) h, Table.insertNew_of_has h]
  · simp only [Journal.enter]
    rw [if_neg (show ¬ ledger.journal.recorded e.item.source from h)]
    apply Journal.ext
    · funext k
      exact propext Table.has_insertNew
    · funext a d
      show Ledger.balance (Table.insertNew ledger e) a (some d) = _
      rw [Ledger.balance_insertNew h]
      simp only [Ledger.part]
      simp only [Option.mem_def, Option.some.injEq, forall_eq']
      show _ + _ = ledger.balance a (some d) + _
      congr 1
      split_ifs <;> first | rfl | contradiction

namespace Db

variable {db : Db} {p : Posting} {ps : List Posting}

/-- And so is posting. -/
theorem journal_post (e : LedgerEntry) :
    (db.post e).ledger.journal = db.ledger.journal.enter e.item := by
  rw [post_ledger, Ledger.journal_insertNew]

/-- A posting enters its capped credit. -/
theorem journal_postAccrual :
    (db.postAccrual p).ledger.journal = db.ledger.journal.credit p.toCredit := by
  simp only [postAccrual]
  cases hloss : p.loss (db.ledger.journal.asOf p.toCredit.account p.toCredit.date) with
  | none =>
    have hexcess := Posting.excess_of_loss_eq_none hloss
    rw [Journal.credit_of_excess_eq hexcess, show p.loss (db.ledger.balance p.account
      (some p.effectiveDate)) = none from hloss]
    exact journal_post _
  | some e =>
    obtain ⟨hexcess, hitem⟩ := Posting.item_of_loss_eq_some hloss
    rw [Journal.credit_of_excess_ne hexcess, show p.loss (db.ledger.balance p.account
      (some p.effectiveDate)) = some e from hloss, ← hitem]
    exact (journal_post e).trans (congrArg (·.enter e.item) (journal_post p.credit))

/-- A job enters the capped credits of its plan. -/
theorem journal_postAccruals :
    (db.postAccruals ps).ledger.journal = db.ledger.journal.credits (ps.map Posting.toCredit) := by
  induction ps generalizing db with
  | nil => rfl
  | cons p ps ih =>
    rw [postAccruals_cons, ih, journal_postAccrual]
    rfl

/-! ## New entries -/

/-- Postings that leave the journal as it was add no entry. -/
theorem unchanged_iff_journal :
    ((db.postAccruals ps).ledger = db.ledger ∧ db.entriesAdded (db.postAccruals ps) = 0) ↔
      (db.postAccruals ps).ledger.journal = db.ledger.journal := by
  constructor
  · rintro ⟨h, -⟩
    rw [h]
  · intro h
    obtain ⟨es, heq, -⟩ := postAccruals_eq_posts ps db
    obtain ⟨new, hnew⟩ := posts_rows es db
    rw [← heq] at hnew
    have hempty : new = [] := by
      cases new with
      | nil => rfl
      | cons e rest =>
        exfalso
        -- the first new entry has a source that was not recorded before
        have hrec : Table.Has (db.postAccruals ps).ledger e.key :=
          Table.has_of_mem (by rw [hnew]; exact List.mem_append_right _ (List.mem_cons_self ..))
        have hold : Table.Has db.ledger e.key := by
          have hfun := congrFun (congrArg Journal.recorded h) e.key
          exact cast hfun hrec
        have hnodup := (db.postAccruals ps).ledger.nodup
        rw [hnew, List.map_append, List.nodup_append] at hnodup
        exact hnodup.2.2 _ hold _ (List.mem_map_of_mem (List.mem_cons_self ..)) rfl
    rw [hempty, List.append_nil] at hnew
    refine ⟨Table.ext' hnew, ?_⟩
    simp only [entriesAdded]
    rw [hnew]
    omega

end Db

/-! ## The jobs

Both jobs as one type, and a delivery as its plan. After a delivery all its
credits are recorded, so all that the same plan can add to the journal is
losses. -/

/-- A delivery of an accrual job. -/
inductive AccrualJob
  | runScheduled (companyId : String) (asOf : Date)
  | onPayrollProcessed (companyId payrollRunId : String) (periodEnd : Date)
      (minutesByEmployee : AccrualService.MinutesByEmployee)

namespace AccrualJob

/-- The transaction of a delivery. -/
def program (dir : Directory) : AccrualJob → Tx JobRun
  | .runScheduled companyId asOf => AccrualService.runScheduled dir companyId asOf
  | .onPayrollProcessed companyId payrollRunId periodEnd minutesByEmployee =>
    AccrualService.onPayrollProcessed dir companyId payrollRunId periodEnd minutesByEmployee

/-- The postings of a delivery. -/
def plan (dir : Directory) (cat : Catalog) : AccrualJob → Except Error (List Posting)
  | .runScheduled companyId asOf => AccrualService.scheduledPlan cat dir companyId asOf
  | .onPayrollProcessed companyId payrollRunId periodEnd minutesByEmployee =>
    AccrualService.payrollPlan cat dir companyId payrollRunId periodEnd minutesByEmployee

/-- What the audit row of a delivery names. -/
def companyId : AccrualJob → String
  | .runScheduled companyId _ => companyId
  | .onPayrollProcessed companyId _ _ _ => companyId

def kind : AccrualJob → JobKind
  | .runScheduled _ _ => .SCHEDULED
  | .onPayrollProcessed _ _ _ _ => .PAYROLL

def sourceId : AccrualJob → String
  | .runScheduled _ asOf => isoformat asOf
  | .onPayrollProcessed _ payrollRunId _ _ => payrollRunId

/-- A delivery is its plan, as far as the database can tell. -/
theorem run_program (dir : Directory) (job : AccrualJob) (db : Db) :
    Tx.run (job.program dir) db
      = AccrualService.jobResult job.companyId job.kind job.sourceId (job.plan dir db.catalog)
          db := by
  cases job with
  | runScheduled companyId asOf => exact AccrualService.run_runScheduled dir companyId asOf db
  | onPayrollProcessed companyId payrollRunId periodEnd minutesByEmployee =>
    exact AccrualService.run_onPayrollProcessed dir companyId payrollRunId periodEnd
      minutesByEmployee db

/-- A delivery goes through when it has a plan, and then makes its postings. -/
theorem run_program_ok {dir : Directory} {job : AccrualJob} {db db' : Db} {outcome : JobRun}
    (h : Tx.run (job.program dir) db = .ok (outcome, db')) :
    ∃ ps, job.plan dir db.catalog = .ok ps ∧
      outcome = AccrualService.jobRun job.companyId job.kind job.sourceId ps db ∧
      db' = (db.postAccruals ps).recordRun outcome := by
  rw [run_program] at h
  cases hplan : job.plan dir db.catalog with
  | error e =>
    rw [hplan] at h
    cases h
  | ok ps =>
    rw [hplan] at h
    cases h
    exact ⟨ps, rfl, rfl, rfl⟩

/-- Entered into the ledger as it is, the credits of the delivery are settled:
each loss is recorded, or the amount would fit under the cap a second time. -/
def Settles (dir : Directory) (job : AccrualJob) (db : Db) : Prop :=
  ∀ ps, job.plan dir db.catalog = .ok ps →
    ∀ p ∈ ps, (db.ledger.journal.credits (ps.map Posting.toCredit)).Settled p.toCredit

/-- The condition, on the ledger that the first delivery leaves. -/
theorem settles_iff {dir : Directory} {job : AccrualJob} {db : Db} {ps : List Posting}
    (h : job.plan dir db.catalog = .ok ps) :
    job.Settles dir db ↔ ∀ p ∈ ps, (db.postAccruals ps).ledger.journal.Settled p.toCredit := by
  rw [Db.journal_postAccruals]
  constructor
  · exact fun hsettles => hsettles ps h
  · intro hsettled qs hqs
    rw [h] at hqs
    cases hqs
    exact hsettled

instance (dir : Directory) (job : AccrualJob) (db : Db) : Decidable (job.Settles dir db) :=
  decidable_of_iff ((job.plan dir db.catalog).Ensures fun ps =>
      ∀ p ∈ ps, (db.postAccruals ps).ledger.journal.Settled p.toCredit) <| by
    cases hplan : job.plan dir db.catalog with
    | error e => exact iff_of_true trivial fun ps hps => nomatch hplan.symm.trans hps
    | ok ps => exact (settles_iff hplan).symm

/-- A second delivery right after the first goes through, and is a no-op
exactly when the first settles every credit. -/
theorem replay_noop_iff {dir : Directory} {job : AccrualJob} {db db₁ : Db} {outcome : JobRun}
    (h : Tx.run (job.program dir) db = .ok (outcome, db₁)) :
    ∃ outcome₂ db₂, Tx.run (job.program dir) db₁ = .ok (outcome₂, db₂) ∧
      ((db₂.ledger = db₁.ledger ∧ outcome₂.entriesCreated = 0) ↔ job.Settles dir db) := by
  obtain ⟨ps, hplan, -, rfl⟩ := run_program_ok h
  -- the first delivery leaves the catalog alone, so the second has the same plan
  have hplan₁ : job.plan dir ((db.postAccruals ps).recordRun outcome).catalog = .ok ps := by
    show job.plan dir (db.postAccruals ps).catalog = _
    rw [Db.postAccruals_catalog]
    exact hplan
  have hrun := run_program dir job ((db.postAccruals ps).recordRun outcome)
  rw [hplan₁] at hrun
  refine ⟨_, _, hrun, ?_⟩
  refine Db.unchanged_iff_journal.trans ?_
  rw [Db.journal_postAccruals, settles_iff hplan, Db.journal_postAccruals]
  have hjournal : ((db.postAccruals ps).recordRun outcome).ledger.journal
      = db.ledger.journal.credits (ps.map Posting.toCredit) := Db.journal_postAccruals
  rw [hjournal, Journal.replay_iff, List.forall_mem_map]

/-- The monthly job of the demo company, twice in January 2026. -/
def januaryTwice (maxBalanceMinutes : Option Int) : Except Error (Db × JobRun × Db × JobRun × Db) :=
  do
    let january := AccrualJob.runScheduled "cmp_warp_demo" (ofYmd 2026 1 31)
    let (_, db) ← Op.runAll Demo.directory (Demo.monthlyDay maxBalanceMinutes) .empty
    let (outcome₁, db₁) ← Tx.run (january.program Demo.directory) db
    let (outcome₂, db₂) ← Tx.run (january.program Demo.directory) db₁
    return (db, outcome₁, db₁, outcome₂, db₂)

/-- Both deliveries go through, from a reachable state. -/
theorem januaryTwice_ok {maxBalanceMinutes : Option Int} {db db₁ db₂ : Db}
    {outcome₁ outcome₂ : JobRun}
    (h : januaryTwice maxBalanceMinutes = .ok (db, outcome₁, db₁, outcome₂, db₂)) :
    Reachable Demo.directory db ∧
      Tx.run ((AccrualJob.runScheduled "cmp_warp_demo" (ofYmd 2026 1 31)).program Demo.directory) db
        = .ok (outcome₁, db₁) ∧
      Tx.run ((AccrualJob.runScheduled "cmp_warp_demo" (ofYmd 2026 1 31)).program
        Demo.directory) db₁
        = .ok (outcome₂, db₂) := by
  obtain ⟨⟨l, d⟩, hd, h⟩ := Except.bind_eq_ok.mp h
  obtain ⟨⟨o₁, d₁⟩, h₁, h⟩ := Except.bind_eq_ok.mp h
  obtain ⟨⟨o₂, d₂⟩, h₂, h⟩ := Except.bind_eq_ok.mp h
  cases h
  exact ⟨⟨l, run_of_runAll hd⟩, h₁, h₂⟩

/-- With 480 of at most 900 minutes credited, a replay takes 60 minutes. -/
theorem replay_not_noop :
    ¬ ∀ (dir : Directory) (job : AccrualJob) (db db₁ db₂ : Db) (outcome₁ outcome₂ : JobRun),
      Reachable dir db → Tx.run (job.program dir) db = .ok (outcome₁, db₁) →
      Tx.run (job.program dir) db₁ = .ok (outcome₂, db₂) →
      db₂.ledger = db₁.ledger ∧ outcome₂.entriesCreated = 0 := by
  intro hclaim
  have hrun : (januaryTwice (some 900)).passes (fun r => r.2.2.2.1.entriesCreated ≠ 0) = true := by
    decide +kernel
  obtain ⟨⟨db, outcome₁, db₁, outcome₂, db₂⟩, hrun, hcreated⟩ := Except.ok_of_passes hrun
  obtain ⟨hdb, h₁, h₂⟩ := januaryTwice_ok hrun
  exact of_decide_eq_true hcreated (hclaim _ _ _ _ _ _ _ hdb h₁ h₂).2

/-- With 480 of at most 2000 minutes credited, the same amount would fit a second
time: the credit is settled, and a replay enters nothing. -/
theorem replay_noop_below_cap :
    ∃ (db db₁ db₂ : Db) (outcome₁ outcome₂ : JobRun), Reachable Demo.directory db ∧
      Tx.run ((AccrualJob.runScheduled "cmp_warp_demo" (ofYmd 2026 1 31)).program Demo.directory) db
        = .ok (outcome₁, db₁) ∧
      outcome₁.entriesCreated = 1 ∧
      (AccrualJob.runScheduled "cmp_warp_demo" (ofYmd 2026 1 31)).Settles Demo.directory db ∧
      Tx.run ((AccrualJob.runScheduled "cmp_warp_demo" (ofYmd 2026 1 31)).program Demo.directory)
        db₁ = .ok (outcome₂, db₂) ∧
      db₂.ledger = db₁.ledger ∧ outcome₂.entriesCreated = 0 := by
  have hrun : (januaryTwice (some 2000)).passes (fun r => r.2.1.entriesCreated = 1 ∧
      (AccrualJob.runScheduled "cmp_warp_demo" (ofYmd 2026 1 31)).Settles Demo.directory
        r.1) = true := by
    decide +kernel
  obtain ⟨⟨db, outcome₁, db₁, _, _⟩, hrun, htest⟩ := Except.ok_of_passes hrun
  obtain ⟨hcreated, hsettles⟩ := of_decide_eq_true htest
  obtain ⟨hdb, h₁, -⟩ := januaryTwice_ok hrun
  obtain ⟨outcome₂, db₂, h₂, hiff⟩ := replay_noop_iff h₁
  exact ⟨db, db₁, db₂, outcome₁, outcome₂, hdb, h₁, hcreated, hsettles, h₂, hiff.mpr hsettles⟩

end AccrualJob

end TimeOff
