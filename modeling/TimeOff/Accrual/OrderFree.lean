import TimeOff.Accrual.Outcomes

/-!
# Balances in every row order

A capped credit looks at what the run has already posted up to its own date. The
job takes one assignment after the other, and one tier of a version after the
other, in an order that the database is free to choose. So what a credit finds
there, and loses to the cap, can depend on that order.

`OrderFree` says when it does not: for every capped credit, either it fits under
its cap whatever the other assignments and tiers have added by its date, or they
add nothing by then. Then a run gives the same balances in every order; and runs
up to a date do so exactly when all of them are free of the order
(`same_balances_iff`).

The credits of a run are a list in groups of groups that may be permuted, and
what each leaves depends on what came before it (`Turns`). One direction is an
induction over the list: a credit that is free of the order leaves in every
order what it leaves in one (`outcome_of_orderFree`). For the other, the runs up
to an earlier date see a part of the list, so equal balances at all dates make
every single credit leave the same in every order (`outcome_eq_of_same`), and
one that leaves the same in every order is free of it.
-/

namespace TimeOff

open Gregorian AccrualService

/-- A scheduled run goes through in every row order or in none, and gives every
account the same balance. -/
def SameBalances (dir : Directory) (companyId : String) (asOf : Date) (db : Db) : Prop :=
  ∀ o : RowOrder db.catalog,
    ((∃ r, Tx.run (runScheduled dir companyId asOf) (db.inOrder o) = .ok r) ↔
      ∃ r, Tx.run (runScheduled dir companyId asOf) db = .ok r) ∧
    ∀ outcome db₁ outcome' db₂,
      Tx.run (runScheduled dir companyId asOf) (db.inOrder o) = .ok (outcome, db₁) →
      Tx.run (runScheduled dir companyId asOf) db = .ok (outcome', db₂) →
        ∀ a, db₁.ledger.balance a none = db₂.ledger.balance a none

/-! ## Credits that do not depend on the order

A credit meets the earlier credits of its own assignment and tier in every
order; of the others it may meet any part. Its loss is an excess over the cap,
so it is free of the order if the excess is the same for every such part. -/

section credits

variable (cat : Catalog) (dir : Directory) (companyId : String) (asOf : Date) (n : Posting → Int)
  (a : PolicyAssignment) (v : PolicyVersion) (rule : AccrualRule) (p : Posting)

/-- The minutes that come before a credit in every order: those of the earlier
versions, and of the rule's earlier periods. `n` is what each credit leaves. -/
def minutesBefore : Int :=
  Turns.bound Posting.Counts (fun a => cat.versionsOf a.policyId)
    (ruleCredits cat dir companyId asOf) (·.rules) n a v
    ((ruleCredits cat dir companyId asOf a v rule).takeWhile (· ≠ p)) p

/-- The minutes of each other assignment, and of each other tier of the version,
that the cap of a credit looks at when they come first. -/
def minutesElsewhere : List Int :=
  Turns.free Posting.Counts (fun a => cat.versionsOf a.policyId)
    (ruleCredits cat dir companyId asOf) (cat.assignmentsBegun companyId asOf) (·.rules) n a v
    rule p

/-- A credit loses the same to its cap, whichever of the others come first. -/
structure CreditFree (ledger : Ledger) : Prop where
  left : n p = p.leaves ledger (minutesBefore cat dir companyId asOf n a v rule p
    + (minutesElsewhere cat dir companyId asOf n a v rule p).sum)
  indifferent : ¬ Table.Has ledger p.lossKey → ∀ cap ∈ p.maxBalanceMinutes,
    Turns.Indifferent (ledger.balance p.account (some p.effectiveDate)
      + minutesBefore cat dir companyId asOf n a v rule p + p.amount - cap)
      (minutesElsewhere cat dir companyId asOf n a v rule p)

instance (ledger : Ledger) : Decidable (CreditFree cat dir companyId asOf n a v rule p ledger) :=
  decidable_of_iff (n p = _ ∧ (¬ _ → ∀ cap ∈ p.maxBalanceMinutes, _))
    ⟨fun h => ⟨h.1, h.2⟩, fun h => ⟨h.1, h.2⟩⟩

end credits

/-- If the run goes through, none of its credits depends on the order. -/
def OrderFree (dir : Directory) (companyId : String) (asOf : Date) (db : Db) : Prop :=
  (∃ ps, scheduledPlan db.catalog dir companyId asOf = .ok ps) →
    ∃ n : Posting → Int, ∀ a ∈ db.catalog.assignmentsBegun companyId asOf,
      ∀ v ∈ db.catalog.versionsOf a.policyId, ∀ rule ∈ v.rules,
        ∀ p ∈ ruleCredits db.catalog dir companyId asOf a v rule,
          CreditFree db.catalog dir companyId asOf n a v rule p db.ledger

/-- Two histories leave the same when they lose the same. -/
theorem Posting.leaves_eq_iff {ledger : Ledger} {p : Posting} {x y : Int} :
    p.leaves ledger x = p.leaves ledger y ↔
      (¬ Table.Has ledger p.lossKey → ∀ cap ∈ p.maxBalanceMinutes,
        max (ledger.balance p.account (some p.effectiveDate) + x + p.amount - cap) 0
          = max (ledger.balance p.account (some p.effectiveDate) + y + p.amount - cap) 0) := by
  simp only [leaves]
  by_cases hloss : Table.Has ledger p.lossKey
  · rw [if_pos hloss, if_pos hloss]
    exact iff_of_true rfl fun hnew => absurd hloss hnew
  · rw [if_neg hloss, if_neg hloss]
    cases p.maxBalanceMinutes with
    | none => simp
    | some cap =>
      simp only [Option.map_some, Option.getD_some, Option.mem_def, Option.some.injEq, forall_eq',
        hloss, not_false_eq_true, forall_const]
      exact Int.sub_right_inj _

namespace AccrualService

variable {dir : Directory} {companyId : String} {asOf day : Date} {db db' : Db}
  {o : RowOrder db.catalog}

/-- A run goes through when it has a plan. -/
theorem exists_run_iff :
    (∃ r, Tx.run (runScheduled dir companyId asOf) db = .ok r) ↔
      ∃ ps, scheduledPlan db.catalog dir companyId asOf = .ok ps := by
  rw [run_runScheduled]
  constructor
  · rintro ⟨r, h⟩
    cases hplan : scheduledPlan db.catalog dir companyId asOf with
    | error e =>
      rw [hplan] at h
      cases h
    | ok ps => exact ⟨ps, rfl⟩
  · rintro ⟨ps, hplan⟩
    rw [hplan]
    exact ⟨_, rfl⟩

/-- And it has one in every order or in none. -/
theorem run_inOrder_iff (htiered : ∀ v ∈ db.catalog.versions.rows, v.Tiered)
    (o : RowOrder db.catalog) :
    (∃ r, Tx.run (runScheduled dir companyId asOf) (db.inOrder o) = .ok r) ↔
      ∃ r, Tx.run (runScheduled dir companyId asOf) db = .ok r :=
  exists_run_iff.trans ((exists_scheduledPlan_inOrder o htiered).trans exists_run_iff.symm)

/-- The balances after a run are those before it and what its credits leave. -/
theorem balance_of_run (htiered : ∀ v ∈ db.catalog.versions.rows, v.Tiered) {outcome : JobRun}
    (h : Tx.run (runScheduled dir companyId asOf) (db.inOrder o) = .ok (outcome, db')) :
    ∃ n, Turns.Outcome Posting.Counts (Posting.leaves db.ledger) n
        (credits o dir companyId asOf) ∧
      ∀ a day, db'.ledger.balance a day
        = db.ledger.balance a day
          + Turns.met Posting.Within n (credits o dir companyId asOf) (a, day) := by
  obtain ⟨ps, hplan, -, rfl⟩ := runScheduled_ok h
  rw [scheduledPlan_inOrder o htiered hplan]
  exact Db.outcome_postAccruals (db.inOrder o) (credits_keys o dir companyId asOf)
    fun p hp => by
      obtain ⟨s, period, hs⟩ := scheduled_of_mem_credits hp
      exact hs.issued

theorem balance_of_stored_run (htiered : ∀ v ∈ db.catalog.versions.rows, v.Tiered)
    {outcome : JobRun} (h : Tx.run (runScheduled dir companyId asOf) db = .ok (outcome, db')) :
    ∃ n, Turns.Outcome Posting.Counts (Posting.leaves db.ledger) n
        (credits (.stored db.catalog) dir companyId asOf) ∧
      ∀ a day, db'.ledger.balance a day
        = db.ledger.balance a day
          + Turns.met Posting.Within n (credits (.stored db.catalog) dir companyId asOf)
            (a, day) := by
  rw [← Db.inOrder_stored db] at h
  exact balance_of_run htiered h

/-! ## Enough

By induction on the list of credits: if all that come before a credit leave in
any order what they leave in this one, it meets what is bound to come first and
some part of the others, and loses the same. -/

theorem minutesBefore_eq {cat : Catalog} {n : Posting → Int} {a : PolicyAssignment}
    {v : PolicyVersion} {rule : AccrualRule} {pre post : List Posting} {p : Posting}
    (h : ruleCredits cat dir companyId asOf a v rule = pre ++ p :: post) :
    minutesBefore cat dir companyId asOf n a v rule p
      = Turns.bound Posting.Counts (fun a => cat.versionsOf a.policyId)
        (ruleCredits cat dir companyId asOf) (·.rules) n a v pre p := by
  have hpre : (ruleCredits cat dir companyId asOf a v rule).takeWhile (· ≠ p) = pre := by
    rw [h]
    exact Turns.takeWhile_ne (h ▸ nodup_ruleCredits dir companyId asOf a v rule)
  unfold minutesBefore
  rw [hpre]

/-- What the credits leave is what they leave in every order. -/
theorem outcome_of_orderFree {n : Posting → Int}
    (hfree : ∀ a ∈ db.catalog.assignmentsBegun companyId asOf,
      ∀ v ∈ db.catalog.versionsOf a.policyId, ∀ rule ∈ v.rules,
        ∀ p ∈ ruleCredits db.catalog dir companyId asOf a v rule,
          CreditFree db.catalog dir companyId asOf n a v rule p db.ledger)
    (o : RowOrder db.catalog) :
    Turns.Outcome Posting.Counts (Posting.leaves db.ledger) n (credits o dir companyId asOf) := by
  refine Turns.outcome_nest (fun a => nodup_versionsOf db.catalog a.policyId)
    (Catalog.assignmentsBegun_inOrder_perm o companyId asOf) o.rules_perm ?_
  intro a ha v hv rule hrule pre p post hitems ws hws
  have hp : p ∈ ruleCredits db.catalog dir companyId asOf a v rule := by rw [hitems]; simp
  obtain ⟨hleft, hindifferent⟩ := hfree a ha v hv rule hrule p hp
  rw [← minutesBefore_eq hitems, hleft]
  refine Posting.leaves_eq_iff.mpr fun hnew cap hcap => ?_
  have hexcess := (hindifferent hnew cap hcap).excess_eq hws
  omega

/-- A run whose credits do not depend on the order gives the same balances in
every order. -/
theorem sameBalances_of_orderFree (htiered : ∀ v ∈ db.catalog.versions.rows, v.Tiered)
    (hfree : OrderFree dir companyId asOf db) : SameBalances dir companyId asOf db := by
  intro o
  refine ⟨run_inOrder_iff htiered o, ?_⟩
  intro outcome db₁ outcome' db₂ h₁ h₂ a
  obtain ⟨n, hn⟩ := hfree (exists_run_iff.mp ⟨_, h₂⟩)
  obtain ⟨n₁, hn₁, hbalance₁⟩ := balance_of_run htiered h₁
  obtain ⟨n₂, hn₂, hbalance₂⟩ := balance_of_stored_run htiered h₂
  have h₁ := hn₁.unique (outcome_of_orderFree hn o)
  have h₂ := hn₂.unique (outcome_of_orderFree hn (.stored db.catalog))
  rw [hbalance₁, hbalance₂, Turns.met_congr fun q hq _ => h₁ q hq,
    Turns.met_congr fun q hq _ => h₂ q hq, Turns.met_perm (credits_perm o (.stored db.catalog))]

/-! ## And needed

The run of an earlier date makes a part of the credits, so the difference of two
totals is what one credit leaves, and equal totals in every order make it leave
the same in every order. Every choice of the others comes first in some order.
-/

theorem met_filter_within {n : Posting → Int} {l : List Posting} {a : Account} :
    Turns.met Posting.Within n (l.filter fun p => p.effectiveDate ≤ day) (a, none)
      = Turns.met Posting.Within n l (a, some day) := by
  refine Turns.met_filter fun q => ?_
  simp only [Posting.Within]
  simp

theorem met_filter_account {n : Posting → Int} {l : List Posting} {a : Account} :
    Turns.met (fun (q : Posting) day => q.effectiveDate ≤ day) n
        (l.filter fun q => q.account = a) day
      = Turns.met Posting.Within n l (a, some day) := by
  refine Turns.met_filter fun q => ?_
  simp only [Posting.Within]
  simp [and_comm]

/-- The totals after the run of an earlier date, by what the credits of a later
one leave. -/
theorem balance_of_earlier_run (htiered : ∀ v ∈ db.catalog.versions.rows, v.Tiered)
    {ps : List Posting} (hplan : scheduledPlan db.catalog dir companyId asOf = .ok ps)
    (hle : day ≤ asOf) {n : Posting → Int}
    (hn : Turns.Outcome Posting.Counts (Posting.leaves db.ledger) n
      (credits o dir companyId asOf)) {outcome : JobRun}
    (h : Tx.run (runScheduled dir companyId day) (db.inOrder o) = .ok (outcome, db'))
    (a : Account) :
    db'.ledger.balance a none = db.ledger.balance a none
      + Turns.met Posting.Within n (credits o dir companyId asOf) (a, some day) := by
  obtain ⟨m, hm, hbalance⟩ := balance_of_run htiered h
  have hfilter := credits_filter o hplan hle
  have hearlier : Turns.Outcome Posting.Counts (Posting.leaves db.ledger) n
      (credits o dir companyId day) := by
    rw [hfilter]
    refine hn.filter fun q p hcounts hp => ?_
    exact decide_eq_true (le_trans (hcounts.2 _ rfl) (of_decide_eq_true hp))
  rw [hbalance, Turns.met_congr fun q hq _ => hm.unique hearlier q hq, hfilter, met_filter_within]

/-- Runs up to a date that give the same balances in a row order leave the same
for every credit. -/
theorem outcome_eq_of_same (hreach : Reachable dir db) {ps : List Posting}
    (hplan : scheduledPlan db.catalog dir companyId asOf = .ok ps)
    (hsame : ∀ day ≤ asOf, SameBalances dir companyId day db) {n m : Posting → Int}
    (hn : Turns.Outcome Posting.Counts (Posting.leaves db.ledger) n
      (credits (.stored db.catalog) dir companyId asOf))
    (hm : Turns.Outcome Posting.Counts (Posting.leaves db.ledger) m
      (credits o dir companyId asOf)) :
    ∀ p ∈ credits o dir companyId asOf, m p = n p := by
  have htiered := hreach.tiered
  -- every account has the same total on every day
  have hday : ∀ (a : Account) day, day ≤ asOf →
      Turns.met Posting.Within m (credits o dir companyId asOf) (a, some day)
        = Turns.met Posting.Within n (credits o dir companyId asOf) (a, some day) := by
    intro a day hle
    obtain ⟨qs, hqs, -⟩ := scheduledPlan_mono hplan hle
    obtain ⟨⟨outcome₂, db₂⟩, h₂⟩ := exists_run_iff.mpr ⟨qs, hqs⟩
    obtain ⟨⟨outcome₁, db₁⟩, h₁⟩ := (run_inOrder_iff htiered o).mpr ⟨_, h₂⟩
    have hbalance := (hsame day hle o).2 outcome₁ db₁ outcome₂ db₂ h₁ h₂ a
    rw [← Db.inOrder_stored db] at h₂
    rw [balance_of_earlier_run htiered hplan hle hm h₁,
      balance_of_earlier_run htiered hplan hle hn h₂,
      Turns.met_perm (credits_perm (.stored db.catalog) o)] at hbalance
    omega
  -- and the credits of an account have different dates
  intro p hp
  let l := (credits o dir companyId asOf).filter fun q => q.account = p.account
  have hnodup : l.Nodup := (List.Nodup.of_map _ (credits_keys o dir companyId asOf)).filter _
  have hdates : ∀ q ∈ l, ∀ q' ∈ l, q.effectiveDate = q'.effectiveDate → q = q' := by
    intro q hq q' hq' hdate
    obtain ⟨hq, haccount⟩ := List.mem_filter.mp hq
    obtain ⟨hq', haccount'⟩ := List.mem_filter.mp hq'
    obtain ⟨s, period, hs⟩ := scheduled_of_mem_credits hq
    obtain ⟨s', period', hs'⟩ := scheduled_of_mem_credits hq'
    exact hs.posting_eq_of_date hs' hreach.filed htiered
      ((of_decide_eq_true haccount).trans (of_decide_eq_true haccount').symm) hdate
  refine Turns.eq_of_met hnodup hdates (fun q hq => ?_) p
    (List.mem_filter.mpr ⟨hp, decide_eq_true rfl⟩)
  obtain ⟨s, period, hs⟩ := scheduled_of_mem_credits (List.mem_filter.mp hq).1
  rw [met_filter_account, met_filter_account]
  exact hday p.account q.effectiveDate hs.date_le

/-- If runs up to a date give the same balances in every order, no credit of the
last depends on the order. -/
theorem orderFree_of_same (hreach : Reachable dir db)
    (hsame : ∀ day ≤ asOf, SameBalances dir companyId day db) :
    OrderFree dir companyId asOf db := by
  rintro ⟨ps, hplan⟩
  have htiered := hreach.tiered
  obtain ⟨⟨outcome, db₁⟩, h₁⟩ := exists_run_iff.mpr ⟨ps, hplan⟩
  obtain ⟨n, hn, -⟩ := balance_of_stored_run htiered h₁
  -- the outcome is that of every order
  have hall : ∀ o : RowOrder db.catalog, Turns.Outcome Posting.Counts (Posting.leaves db.ledger) n
      (credits o dir companyId asOf) := by
    intro o
    obtain ⟨⟨outcome', db₂⟩, h₂⟩ := (run_inOrder_iff htiered o).mpr ⟨_, h₁⟩
    obtain ⟨m, hm, -⟩ := balance_of_run htiered h₂
    exact hm.congr (outcome_eq_of_same hreach hplan hsame hn hm)
  have hnest : ∀ as' parts', as'.Perm (db.catalog.assignmentsBegun companyId asOf) →
      (∀ v : PolicyVersion, (parts' v).Perm v.rules) →
        Turns.Outcome Posting.Counts (Posting.leaves db.ledger) n
          (Turns.nest (fun a => db.catalog.versionsOf a.policyId)
            (ruleCredits db.catalog dir companyId asOf) as' parts') := by
    intro as' parts' has hparts
    rw [← credits_taking has hparts]
    exact hall _
  refine ⟨n, fun a ha v hv rule hrule p hp => ?_⟩
  obtain ⟨pre, post, hitems⟩ := List.append_of_mem hp
  have hturns : ∀ P : Int → Bool,
      p.leaves db.ledger (minutesBefore db.catalog dir companyId asOf n a v rule p
        + ((minutesElsewhere db.catalog dir companyId asOf n a v rule p).filter P).sum) = n p := by
    intro P
    have hturn := Turns.effect_of_outcomes (fun a => nodup_versionsOf db.catalog a.policyId) hnest
      ha hv hrule hitems P
    rw [minutesBefore_eq hitems]
    exact hturn
  have hleft := hturns fun _ => true
  rw [List.filter_true] at hleft
  refine ⟨hleft.symm, fun hnew cap hcap => Turns.indifferent_iff.mpr fun P => ?_⟩
  have hlost := Posting.leaves_eq_iff.mp ((hturns P).trans hleft.symm) hnew cap hcap
  omega

/-- **Balances and row order**: runs up to a date give every account the same
balance in every row order exactly when no credit of theirs depends on it. -/
theorem same_balances_iff (hreach : Reachable dir db) :
    (OrderFree dir companyId asOf db → SameBalances dir companyId asOf db) ∧
    ((∀ day ≤ asOf, SameBalances dir companyId day db) ↔
      ∀ day ≤ asOf, OrderFree dir companyId day db) := by
  refine ⟨sameBalances_of_orderFree hreach.tiered, fun hsame day hle => ?_, fun hfree day hle => ?_⟩
  · exact orderFree_of_same hreach fun earlier h => hsame earlier (le_trans h hle)
  · exact sameBalances_of_orderFree hreach.tiered (hfree day hle)

end AccrualService

/-! ## Ada's two assignments -/

/-- The assignments in the opposite order. -/
def RowOrder.reversed (c : Catalog) : RowOrder c :=
  { RowOrder.stored c with
    assignments := c.assignments.rows.reverse
    assignments_perm := List.reverse_perm _ }

/-- Ada's assignment ends with January, and another one follows. -/
def Demo.reassigned (maxBalanceMinutes : Int) : List Op :=
  Demo.monthlyDay (some maxBalanceMinutes) ++
    [ .catalog (.endAssignment Demo.assignmentId (ofYmd 2026 1 31)),
      .catalog (.assign Demo.policyId (ofYmd 2026 2 1) [("emp_ada", Demo.nextAssignmentId)]) ]

/-- Below a cap of two days and a bit nothing is lost in any order. -/
theorem reassigned_same_balances :
    ∃ db outcome db', Reachable Demo.directory db ∧
      Tx.run (runScheduled Demo.directory "cmp_warp_demo" (ofYmd 2026 2 28)) db
        = .ok (outcome, db') ∧
      SameBalances Demo.directory "cmp_warp_demo" (ofYmd 2026 2 28) db := by
  have hrun : (Op.runThen Demo.directory (Demo.reassigned 1000)
      (runScheduled Demo.directory "cmp_warp_demo" (ofYmd 2026 2 28))).passes (fun r =>
        ∀ a ∈ r.1.catalog.assignmentsBegun "cmp_warp_demo" (ofYmd 2026 2 28),
          ∀ v ∈ r.1.catalog.versionsOf a.policyId, ∀ rule ∈ v.rules,
            ∀ p ∈ ruleCredits r.1.catalog Demo.directory "cmp_warp_demo" (ofYmd 2026 2 28) a v rule,
              CreditFree r.1.catalog Demo.directory "cmp_warp_demo" (ofYmd 2026 2 28)
                Posting.amount a v rule p r.1.ledger) = true := by
    decide +kernel
  obtain ⟨⟨db, outcome, db'⟩, hr, hfree⟩ := Except.ok_of_passes hrun
  obtain ⟨hdb, hrun⟩ := ok_of_runThen hr
  exact ⟨db, outcome, db', hdb, hrun, (AccrualService.same_balances_iff hdb).1
    fun _ => ⟨Posting.amount, of_decide_eq_true hfree⟩⟩

/-- With a cap below two days, Ada has 900 minutes in the end, or 960 when the
later assignment comes first. -/
theorem balances_depend_on_row_order :
    ∃ db, Reachable Demo.directory db ∧
      ¬ SameBalances Demo.directory "cmp_warp_demo" (ofYmd 2026 2 28) db := by
  have hrun : (Op.runThen Demo.directory (Demo.reassigned 900)
      (runScheduled Demo.directory "cmp_warp_demo" (ofYmd 2026 2 28))).passes (fun r =>
        r.2.2.ledger.balance Demo.account none = 900 ∧
        (Tx.run (runScheduled Demo.directory "cmp_warp_demo" (ofYmd 2026 2 28))
          (r.1.inOrder (.reversed r.1.catalog))).passes (fun x =>
            x.2.ledger.balance Demo.account none = 960)) = true := by
    decide +kernel
  obtain ⟨⟨db, outcome, db'⟩, hr, htest⟩ := Except.ok_of_passes hrun
  obtain ⟨hbalance, htest⟩ := of_decide_eq_true htest
  obtain ⟨⟨outcome', db''⟩, hother, hbalance'⟩ := Except.ok_of_passes htest
  obtain ⟨hdb, hrun⟩ := ok_of_runThen hr
  refine ⟨db, hdb, fun hsame => ?_⟩
  have heq := (hsame _).2 _ _ _ _ hother hrun Demo.account
  rw [of_decide_eq_true hbalance', hbalance] at heq
  exact absurd heq (by decide)

end TimeOff
