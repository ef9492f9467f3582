import TimeOff.Accrual.Edits

/-!
# Changes of eligibility and scheduled credits

The source of a scheduled credit names the assignment row, and a row is no more
than a stretch of eligibility: an employee who leaves an audience and comes back
gets a new one, and a row that begins on the day of a change is deleted, while
its credits stay in the ledger. So a period that is credited for one row is
credited again for the next. One row never credits more than the full amount of
the rule (`Scheduled.amount_le`); `full_amount_iff` says when several do.

The quantity is `Ledger.scheduledIn`, the minutes that scheduled credits have
added to the account for a period. A posting adds its amount if it is dated in
the period and its source is free, and a cap loss is not a credit; so from at
most the full amount it stays there exactly if the new amount fits beside what
is there (`Posting.FitsIn`). The first credit always does. Along a run the
quantity never falls, which gives the converse: a posting that does not fit
leaves an excess for good.
-/

namespace TimeOff

open Gregorian AccrualService

/-- A credit of the scheduled job to the account, dated in the period. -/
def LedgerEntry.CreditsIn (a : Account) (period : Period) (e : LedgerEntry) : Prop :=
  e.account = a ∧ e.entryType = .ACCRUAL ∧ e.sourceType = .SCHEDULED_ACCRUAL ∧
    period.start ≤ e.effectiveDate ∧ e.effectiveDate ≤ period.finish

instance (a : Account) (period : Period) (e : LedgerEntry) : Decidable (e.CreditsIn a period) :=
  inferInstanceAs (Decidable (_ ∧ _ ∧ _ ∧ _ ∧ _))

/-- What an entry adds to the credits of a period. -/
def LedgerEntry.partIn (a : Account) (period : Period) (e : LedgerEntry) : Int :=
  if e.CreditsIn a period then e.amountMinutes else 0

/-- The minutes that the scheduled job has credited to the account for a period.
A credit is dated in the period it is for (`Scheduled.dated`), and the periods of
a calendar do not overlap. -/
def Ledger.scheduledIn (ledger : Ledger) (a : Account) (period : Period) : Int :=
  Table.sum ledger (LedgerEntry.partIn a period)

/-- What a rule is worth to an employee for one period. -/
def AccrualRule.fullAmount (rule : AccrualRule) (employee : Employee) : Int :=
  toMinutes rule.amount rule.unit employee.workMinutesPerDay

/-- A new credit to an account that has been credited for the period stays within
`full`, with what is there. -/
def Posting.FitsIn (a : Account) (period : Period) (full : Int) (ledger : Ledger) (p : Posting) :
    Prop :=
  p.credit.CreditsIn a period → ¬ Table.Has ledger p.credit.key →
    (∃ e ∈ ledger.rows, e.CreditsIn a period) → ledger.scheduledIn a period + p.amount ≤ full

instance (a : Account) (period : Period) (full : Int) (ledger : Ledger) (p : Posting) :
    Decidable (p.FitsIn a period full ledger) :=
  inferInstanceAs (Decidable (_ → ¬ _ → (∃ e ∈ ledger.rows, _) → _ ≤ _))

/-- A step that credits a period again only within `full`. -/
def RecreditsWithin (dir : Directory) (a : Account) (period : Period) (full : Int) (db : Db)
    (op : Op) : Prop :=
  op.PostsWithin (Posting.FitsIn a period full) dir db

instance (dir : Directory) (a : Account) (period : Period) (full : Int) (db : Db) (op : Op) :
    Decidable (RecreditsWithin dir a period full db op) :=
  inferInstanceAs (Decidable (op.PostsWithin _ dir db))

/-! ## One credit

A scheduled credit is dated in its period, and its amount is the full amount or
a part of it. -/

namespace AccrualService.Scheduled

variable {cat : Catalog} {dir : Directory} {companyId : String} {asOf : Date} {s : RuleScope}
  {period : Period} {p : Posting}

/-- No period is credited before it starts. -/
theorem start_le_effective (s : RuleScope) (hperiod : period.start ≤ period.finish) :
    period.start ≤ s.effective period := by
  simp only [RuleScope.effective]
  split
  · exact le_max_left _ _
  · exact le_trans hperiod (le_max_left _ _)

/-- A credit is dated in its period. -/
theorem dated (h : Scheduled cat dir companyId asOf s period p) :
    period.start ≤ p.effectiveDate ∧ p.effectiveDate ≤ period.finish := by
  obtain ⟨_, -, -, hfirst, hperiod⟩ := h.period_spec
  rw [h.posting_eq]
  refine ⟨start_le_effective s hperiod, ?_⟩
  show max _ _ ≤ period.finish
  split
  · exact max_le hperiod hfirst
  · exact max_le (le_refl _) hfirst

/-- No row credits more than the full amount. -/
theorem amount_le (h : Scheduled cat dir companyId asOf s period p)
    (hvalid : ∀ v ∈ cat.versions.rows, v.Valid) : p.amount ≤ s.rule.fullAmount s.employee := by
  obtain ⟨company, -, hperiod, hfirst, -⟩ := h.period_spec
  have hrule := (hvalid s.version (Catalog.mem_versionsOf.mp h.stored).1).rules s.rule h.listed
  rw [h.posting_eq]
  refine scheduledAmount_le hrule.1 (le_of_lt s.employee.work_positive) ?_
    (le_trans (le_max_left _ _) hfirst)
  rw [hperiod]
  exact periodOf_length ..

end AccrualService.Scheduled

/-- What an accrual job credits to an account in a period, under a policy with
one rule. -/
theorem amount_bounds_of_creditsIn {dir : Directory} {c : Catalog} {op : Op} {ps : List Posting}
    {p : Posting} {a : Account} {period : Period} {rule : AccrualRule} {employee : Employee}
    (h : op.postings dir c = .ok ps) (hp : p ∈ ps) (hvalid : ∀ v ∈ c.versions.rows, v.Valid)
    (hrule : ∀ v ∈ c.versions.rows, v.policyId = a.policyId → v.rules = [rule])
    (hemployee : dir.employee a.employeeId = .ok employee)
    (hcredits : p.credit.CreditsIn a period) :
    0 ≤ p.amount ∧ p.amount ≤ rule.fullAmount employee := by
  obtain ⟨haccount, -, htype, -⟩ := hcredits
  obtain ⟨companyId, asOf, s, _, -, hs⟩ := scheduled_of_postings h hp htype
  refine ⟨hs.amount_nonneg hvalid, ?_⟩
  have hle := hs.amount_le hvalid
  -- the account is the one of the row
  rw [hs.posting_eq] at haccount
  have hid : s.assignment.employeeId = a.employeeId := congrArg Account.employeeId haccount
  have hpolicy : s.assignment.policyId = a.policyId := congrArg Account.policyId haccount
  obtain ⟨hv, hvpolicy⟩ := Catalog.mem_versionsOf.mp hs.stored
  have hlisted := hs.listed
  rw [hrule s.version hv (hvpolicy.trans hpolicy), List.mem_singleton] at hlisted
  have hknown := hs.known
  rw [hid, hemployee] at hknown
  rw [hlisted, ← Except.ok.inj hknown] at hle
  exact hle

/-! ## What postings add

The minutes credited to an account in a period are a sum over the ledger that
only grows, by the amounts of postings whose sources are free. -/

namespace Db

variable {db : Db} {a : Account} {period : Period} {full : Int} {p : Posting} {ps : List Posting}
  {e : LedgerEntry} {es : List LedgerEntry}

/-- A new entry adds its part. -/
theorem scheduledIn_post :
    (db.post e).ledger.scheduledIn a period
      = db.ledger.scheduledIn a period
        + if Table.Has db.ledger e.key then 0 else e.partIn a period := by
  rw [post_ledger]
  by_cases h : Table.Has db.ledger e.key
  · rw [if_pos h, Int.add_zero, Table.insertNew_of_has h]
  · rw [if_neg h]
    exact Table.sum_insertNew h _

/-- Entries that are no such credits add nothing. -/
theorem scheduledIn_posts_of_not (h : ∀ e ∈ es, ¬ e.CreditsIn a period) :
    (db.posts es).ledger.scheduledIn a period = db.ledger.scheduledIn a period := by
  induction es generalizing db with
  | nil => rfl
  | cons e es ih =>
    have hzero : e.partIn a period = 0 := if_neg (h e (List.mem_cons_self ..))
    rw [posts_cons, ih fun f hf => h f (List.mem_cons_of_mem _ hf), scheduledIn_post, hzero,
      ite_self, Int.add_zero]

/-- A posting adds its credit, and a cap loss is none. -/
theorem scheduledIn_postAccrual :
    (db.postAccrual p).ledger.scheduledIn a period
      = db.ledger.scheduledIn a period
        + if Table.Has db.ledger p.credit.key then 0 else p.credit.partIn a period := by
  rw [postAccrual_eq_posts, posts_cons, scheduledIn_posts_of_not, scheduledIn_post]
  intro e he hcredits
  obtain ⟨cap, -, -, rfl⟩ := Posting.loss_eq_some (Option.mem_toList.mp he)
  cases hcredits.2.1

theorem partIn_credit_nonneg (h : p.credit.CreditsIn a period → 0 ≤ p.amount) :
    0 ≤ p.credit.partIn a period := by
  simp only [LedgerEntry.partIn]
  split
  · next hcredits => exact h hcredits
  · exact le_refl 0

/-- So what has been credited stays credited. -/
theorem scheduledIn_le_postAccrual (h : p.credit.CreditsIn a period → 0 ≤ p.amount) :
    db.ledger.scheduledIn a period ≤ (db.postAccrual p).ledger.scheduledIn a period := by
  rw [scheduledIn_postAccrual]
  have hpart := partIn_credit_nonneg h
  split <;> omega

theorem scheduledIn_le_postAccruals
    (h : ∀ p ∈ ps, p.credit.CreditsIn a period → 0 ≤ p.amount) :
    db.ledger.scheduledIn a period ≤ (db.postAccruals ps).ledger.scheduledIn a period := by
  induction ps generalizing db with
  | nil => exact le_refl _
  | cons p ps ih =>
    exact le_trans (scheduledIn_le_postAccrual (h p (List.mem_cons_self ..)))
      (ih fun q hq => h q (List.mem_cons_of_mem _ hq))

/-- A posting of at most `full` stays within `full` exactly when it fits what is
there. -/
theorem scheduledIn_postAccrual_le_iff (hfull : p.credit.CreditsIn a period → p.amount ≤ full)
    (hle : db.ledger.scheduledIn a period ≤ full) :
    (db.postAccrual p).ledger.scheduledIn a period ≤ full ↔ p.FitsIn a period full db.ledger := by
  rw [scheduledIn_postAccrual]
  simp only [Posting.FitsIn]
  by_cases hhas : Table.Has db.ledger p.credit.key
  · rw [if_pos hhas, Int.add_zero]
    exact ⟨fun _ _ hnew => absurd hhas hnew, fun _ => hle⟩
  by_cases hcredits : p.credit.CreditsIn a period
  · have hpart : p.credit.partIn a period = p.amount := if_pos hcredits
    rw [if_neg hhas, hpart]
    refine ⟨fun h _ _ _ => h, fun h => ?_⟩
    by_cases hprior : ∃ e ∈ db.ledger.rows, e.CreditsIn a period
    · exact h hcredits hhas hprior
    · -- the first credit of the period
      have hzero : db.ledger.scheduledIn a period = 0 :=
        Table.sum_eq_zero fun e he => if_neg fun hc => hprior ⟨e, he, hc⟩
      have hamount := hfull hcredits
      omega
  · have hpart : p.credit.partIn a period = 0 := if_neg hcredits
    rw [if_neg hhas, hpart, Int.add_zero]
    exact ⟨fun _ hc => absurd hc hcredits, fun _ => hle⟩

/-- The postings of a job, each on the ledger it meets. -/
theorem scheduledIn_postAccruals_le_iff
    (hbounds : ∀ p ∈ ps, p.credit.CreditsIn a period → 0 ≤ p.amount ∧ p.amount ≤ full)
    (hle : db.ledger.scheduledIn a period ≤ full) :
    (db.postAccruals ps).ledger.scheduledIn a period ≤ full
      ↔ db.Each (Posting.FitsIn a period full) ps := by
  induction ps generalizing db with
  | nil => exact ⟨fun _ => trivial, fun _ => hle⟩
  | cons p ps ih =>
    have hstep := scheduledIn_postAccrual_le_iff
      (fun hc => (hbounds p (List.mem_cons_self ..) hc).2) hle
    have hrest := fun q hq => hbounds q (List.mem_cons_of_mem _ hq)
    rw [postAccruals_cons]
    constructor
    · intro hfinal
      -- the sum only grows, so it was in bounds all along
      have hp : (db.postAccrual p).ledger.scheduledIn a period ≤ full :=
        le_trans (scheduledIn_le_postAccruals fun q hq hc => (hrest q hq hc).1) hfinal
      exact ⟨hstep.mp hp, (ih hrest hp).mp hfinal⟩
    · rintro ⟨hp, hps⟩
      exact (ih hrest (hstep.mpr hp)).mpr hps

end Db

/-! ## Runs -/

/-- What a job planned is what it posted. -/
theorem Effect.ledger_of_postings {dir : Directory} {db db' : Db} {op : Op} {ps : List Posting}
    (h : Effect dir db op db') (hplan : op.postings dir db.catalog = .ok ps) (hne : ps ≠ []) :
    db'.ledger = (db.postAccruals ps).ledger := by
  cases h with
  | runScheduled hplan' | onPayrollProcessed hplan' =>
    obtain rfl := Except.ok.inj (hplan'.symm.trans hplan)
    rfl
  | catalog | submit | decide | cancel | rollover =>
    cases hplan
    exact absurd rfl hne

/-- Under a policy with one rule, an account is credited at most the full amount
for a period in every state of a run exactly when no step credits the period
again beyond it. -/
theorem full_amount_iff {dir : Directory} {a : Account} {rule : AccrualRule} {employee : Employee}
    {period : Period} {l : List (Db × Op × Db)} {db : Db} (h : Run dir .empty l db)
    (hrule : (db.catalog.versionsOf a.policyId).map (·.rules) = [[rule]])
    (hemployee : dir.employee a.employeeId = .ok employee) :
    (∀ x ∈ l, x.2.2.ledger.scheduledIn a period ≤ rule.fullAmount employee) ↔
      ∀ x ∈ l, RecreditsWithin dir a period (rule.fullAmount employee) x.1 x.2.1 := by
  have hrules : ∀ v ∈ db.catalog.versions.rows, v.policyId = a.policyId → v.rules = [rule] := by
    intro v hv hpolicy
    have hmem := List.mem_map_of_mem (f := (·.rules)) (Catalog.mem_versionsOf.mpr ⟨hv, hpolicy⟩)
    rw [hrule] at hmem
    exact List.mem_singleton.mp hmem
  -- the rule is valid, because it is stored
  have hvalid := Reachable.valid ⟨l, h⟩
  have hfull : 0 ≤ rule.fullAmount employee := by
    have hmem : [rule] ∈ (db.catalog.versionsOf a.policyId).map (·.rules) := by
      rw [hrule]
      exact List.mem_singleton.mpr rfl
    obtain ⟨v, hv, hvrules⟩ := List.mem_map.mp hmem
    have hlisted : rule ∈ v.rules := hvrules ▸ List.mem_singleton.mpr rfl
    have hrule := (hvalid v (Catalog.mem_versionsOf.mp hv).1).rules rule hlisted
    exact toMinutes_nonneg hrule.1 (le_of_lt employee.work_positive)
  -- what the catalogs of the run contain, the last one does
  have hrun := h.strengthen (Q := fun t _ _ => t.catalog.versions.rows ⊆ db.catalog.versions.rows)
    fun x hx => List.Subset.trans (effect_of_step (h.steps x hx)).grows.subset (h.grows hx).subset
  have hbounds : ∀ {t : Db} {op : Op} {ps : List Posting},
      t.catalog.versions.rows ⊆ db.catalog.versions.rows → op.postings dir t.catalog = .ok ps →
      ∀ p ∈ ps, p.credit.CreditsIn a period → 0 ≤ p.amount ∧ p.amount ≤ rule.fullAmount employee :=
    fun hsubset hplan p hp hcredits => amount_bounds_of_creditsIn hplan hp
      (fun v hv => hvalid v (hsubset hv)) (fun v hv => hrules v (hsubset hv)) hemployee hcredits
  refine hrun.guard_iff (G := fun db => db.ledger.scheduledIn a period ≤ rule.fullAmount employee)
    (fun _ => True) ⟨trivial, hfull⟩ ?_ ?_
  · rintro t op u ⟨-, hle⟩ hwithin ⟨hstep, hsubset⟩
    refine ⟨trivial, ?_⟩
    cases (effect_of_step hstep).onLedger with
    | accrual ps hplan hledger =>
      rw [hledger]
      exact (Db.scheduledIn_postAccruals_le_iff (hbounds hsubset hplan) hle).mpr
        (hwithin.each hplan)
    | other es hes hledger =>
      rw [hledger, Db.scheduledIn_posts_of_not fun e he hc => hes e he (Or.inl hc.2.2.1)]
      exact hle
  · rintro t op u ⟨-, hle⟩ ⟨hstep, hsubset⟩ hafter
    refine Except.ensures_iff.mpr fun ps hplan => ?_
    by_cases hne : ps = []
    · rw [hne]
      trivial
    · rw [(effect_of_step hstep).ledger_of_postings hplan hne] at hafter
      exact (Db.scheduledIn_postAccruals_le_iff (hbounds hsubset hplan) hle).mp hafter

/-- A change of who is eligible. -/
def Op.ChangesEligibility : Op → Prop
  | .catalog op =>
    match op with
    | .assign .. | .endAssignment .. | .setPolicyAudience .. | .replaceMembers ..
    | .setEmployeeGroup .. | .removeGroup .. => True
    | .createCategory _ | .createPolicy .. | .updatePolicy .. | .createGroup .. | .addHoliday _
    | .ensureYear .. => False
  | _ => False

instance (op : Op) : Decidable op.ChangesEligibility :=
  match op with
  | .catalog op =>
    match op with
    | .assign .. | .endAssignment .. | .setPolicyAudience .. | .replaceMembers ..
    | .setEmployeeGroup .. | .removeGroup .. => isTrue trivial
    | .createCategory _ | .createPolicy .. | .updatePolicy .. | .createGroup .. | .addHoliday _
    | .ensureYear .. => isFalse id
  | .submit .. | .decide .. | .cancel .. | .runScheduled .. | .onPayrollProcessed ..
  | .rollover .. => isFalse id

namespace Demo

/-- A day at the start of every month. -/
def monthlyRule : AccrualRule :=
  { method := .TIME, amount := 1, unit := .DAY, frequency := some .MONTHLY
    accruesAt := some .START_OF_PERIOD, id := ruleId }

/-- Its policy, from January 1, 2026 on, for nobody yet. -/
def monthlyPolicy : List Op :=
  [ .catalog (.createCategory ⟨categoryId, "cmp_warp_demo", "Vacation"⟩),
    .catalog (.createPolicy "cmp_warp_demo" policyId versionId "Core vacation" categoryId
      { effectiveFrom := ofYmd 2026 1 1, kind := .ACCRUAL } [monthlyRule]) ]

/-- A group with Ada in it, which the policy is for. -/
def groupAudience : List Op :=
  [ .catalog (.createGroup "cmp_warp_demo" groupId "Interns" ["emp_ada"]),
    .catalog (.setPolicyAudience policyId false [groupId] (ofYmd 2026 1 1)
      fun _ _ => assignmentId) ]

/-- The members of the group from January 1 on. -/
def members (employeeIds : List String) (assignmentId : Uuid) : Op :=
  .catalog (.replaceMembers groupId employeeIds (ofYmd 2026 1 1) fun _ _ => assignmentId)

/-- The job of January. -/
def accrueJanuary : Op := .runScheduled "cmp_warp_demo" (ofYmd 2026 1 31)

def januaryPeriod : Period := ⟨ofYmd 2026 1 1, ofYmd 2026 1 31⟩

/-- January is credited, Ada leaves the group and joins it again, and January is
credited once more. -/
def leaveAndJoin : Except Error (Db × List (Db × Op × Db) × Db) := do
  let (_, start) ← Op.runAll directory (monthlyPolicy ++ groupAudience) .empty
  let (l, finish) ← Op.runAll directory
    [accrueJanuary, members [] otherAssignmentId, members ["emp_ada"] nextAssignmentId,
      accrueJanuary] start
  return (start, l, finish)

/-- Ada is assigned from January 20 to 22, and again from January 25. -/
def assignTwice : List Op :=
  [ .catalog (.assign policyId (ofYmd 2026 1 20) [("emp_ada", assignmentId)]), accrueJanuary,
    .catalog (.endAssignment assignmentId (ofYmd 2026 1 22)),
    .catalog (.assign policyId (ofYmd 2026 1 25) [("emp_ada", nextAssignmentId)]), accrueJanuary ]

end Demo

/-- Ada is out of the group and in it again as of one day. Nobody's eligibility
is different in the end, but January is credited in full for the row that was
deleted and for the new one. -/
theorem full_amount_twice :
    ¬ ∀ (dir : Directory) (a : Account) (rule : AccrualRule) (frequency : Schedule)
      (employee : Employee) (company : Company) (period : Period) (l : List (Db × Op × Db))
      (db₀ db : Db), Reachable dir db₀ → Run dir db₀ l db →
      (∀ x ∈ l, x.2.1.ChangesEligibility ∨ x.2.1.IsScheduled) →
      (∀ e ∈ db₀.ledger.rows, e.sourceType ≠ .SCHEDULED_ACCRUAL) →
      (db₀.catalog.versionsOf a.policyId).map (fun v => (v.rules, v.maxBalanceMinutes))
        = [([rule], none)] →
      rule.method = .TIME → rule.frequency = some frequency →
      dir.employee a.employeeId = .ok employee → dir.company employee.companyId = .ok company →
      period = periodOf frequency company.payPeriodAnchor period.start →
      db.ledger.scheduledIn a period ≤ rule.fullAmount employee := by
  intro hclaim
  have hrun : Demo.leaveAndJoin.passes (fun r =>
      (∀ x ∈ r.2.1, x.2.1.ChangesEligibility ∨ x.2.1.IsScheduled) ∧
        (∀ e ∈ r.1.ledger.rows, e.sourceType ≠ .SCHEDULED_ACCRUAL) ∧
        (r.1.catalog.versionsOf Demo.account.policyId).map
          (fun v => (v.rules, v.maxBalanceMinutes)) = [([Demo.monthlyRule], none)] ∧
        r.2.2.ledger.scheduledIn Demo.account Demo.januaryPeriod = 960) = true := by
    decide +kernel
  obtain ⟨⟨start, l, finish⟩, hr, htest⟩ := Except.ok_of_passes hrun
  obtain ⟨hops, hfresh, hrule, hsum⟩ := of_decide_eq_true htest
  obtain ⟨⟨l₀, db₀⟩, hstart, hr⟩ := Except.bind_eq_ok.mp hr
  obtain ⟨⟨l₁, db₁⟩, hl, hr⟩ := Except.bind_eq_ok.mp hr
  cases hr
  have hle := hclaim Demo.directory Demo.account Demo.monthlyRule .MONTHLY _ _
    Demo.januaryPeriod l start finish ⟨_, run_of_runAll hstart⟩ (run_of_runAll hl) hops hfresh
    hrule rfl rfl rfl rfl (by decide +kernel)
  rw [hsum] at hle
  exact absurd hle (by decide +kernel)

/-- Two parts of January fit into it. -/
theorem full_amount_in_parts :
    ∃ l db, Run Demo.directory .empty l db ∧
      db.ledger.scheduledIn Demo.account Demo.januaryPeriod = 293 ∧
      ∀ x ∈ l, x.2.2.ledger.scheduledIn Demo.account Demo.januaryPeriod ≤ 480 := by
  have hrun : (Op.runAll Demo.directory (Demo.monthlyPolicy ++ Demo.assignTwice) .empty).passes
      (fun r =>
        (r.2.catalog.versionsOf Demo.account.policyId).map (·.rules) = [[Demo.monthlyRule]] ∧
          r.2.ledger.scheduledIn Demo.account Demo.januaryPeriod = 293 ∧
          ∀ x ∈ r.1, RecreditsWithin Demo.directory Demo.account Demo.januaryPeriod 480 x.1 x.2.1) =
        true := by
    decide +kernel
  obtain ⟨⟨l, db⟩, hr, htest⟩ := Except.ok_of_passes hrun
  obtain ⟨hrule, hsum, hwithin⟩ := of_decide_eq_true htest
  obtain ⟨ada, hada, hfull⟩ : ∃ ada, Demo.directory.employee "emp_ada" = .ok ada ∧
      Demo.monthlyRule.fullAmount ada = 480 := ⟨_, rfl, by decide +kernel⟩
  have hl := run_of_runAll hr
  rw [← hfull] at hwithin ⊢
  exact ⟨l, db, hl, hsum, (full_amount_iff hl hrule hada).mpr hwithin⟩

end TimeOff
