import TimeOff.Accrual.Balances
import TimeOff.Accrual.Postings

/-!
# The balance cap

A new credit is cut so that the balance up to its own date fits under the cap.
Minutes dated later do not count, so a credit that is delivered after later ones
can lift the total above the cap. `le_cap_postAccrual_iff` says when it does,
and `balance_le_cap` that nothing else can; credits delivered in the order of
their dates always fit (`Posting.Fits.of_later`).

A cut credit can also cost more than it brings: the loss is computed from a
balance that a new cap may find above itself, and posted in full. That is the
one case in which a new credit lowers a balance
(`new_credit_keeps_balance_iff`).

`CapInvariant` carries the run: losses have their credits, and as long as the
policy has this cap and the account entries of the accrual jobs only, the total
is within the cap. A posting of a job adds a credit and a loss, so its step is
arithmetic on four numbers: the total, the part of it that is dated later, the
amount and the cap.
-/

namespace TimeOff

open Gregorian

/-- A new credit fits under the cap together with the minutes dated later. -/
def Posting.Fits (ledger : Ledger) (p : Posting) : Prop :=
  ¬ Table.Has ledger p.credit.key → ∀ cap ∈ p.maxBalanceMinutes,
    ledger.later p.account p.effectiveDate
      + min (ledger.balance p.account (some p.effectiveDate) + p.amount) cap ≤ cap

instance (ledger : Ledger) (p : Posting) : Decidable (p.Fits ledger) :=
  inferInstanceAs (Decidable (¬ _ → ∀ cap ∈ p.maxBalanceMinutes, _))

/-- Nothing is in the way of a credit when no minutes are dated later. -/
theorem Posting.Fits.of_later {ledger : Ledger} {p : Posting}
    (h : ledger.later p.account p.effectiveDate ≤ 0) : p.Fits ledger := by
  intro _ cap _
  have hmin := min_le_right (ledger.balance p.account (some p.effectiveDate) + p.amount) cap
  omega

/-- A posting keeps the total at its cap or below exactly when its credit fits. -/
theorem Db.le_cap_postAccrual_iff {db : Db} {p : Posting} {c : Catalog} {cap : Int}
    (hcredited : LossesCredited db.ledger) (hp : p.Issued c) (hcap : p.maxBalanceMinutes = some cap)
    (hle : db.ledger.balance p.account none ≤ cap) :
    (db.postAccrual p).ledger.balance p.account none ≤ cap ↔ p.Fits db.ledger := by
  have htotal : (db.postAccrual p).ledger.balance p.account none
      = db.ledger.balance p.account none + p.credits db.ledger - p.forfeits db.ledger :=
    total_postAccrual
  rw [htotal]
  simp only [Posting.Fits]
  simp only [hcap, Option.mem_def, Option.some.injEq, forall_eq']
  by_cases hcredit : Table.Has db.ledger p.credit.key
  · -- a credit that is there already adds nothing
    have hzero : p.credits db.ledger = 0 := if_pos hcredit
    have hforfeits := p.forfeits_nonneg db.ledger
    constructor
    · intro _ hnew
      exact absurd hcredit hnew
    · intro _
      omega
  · have hamount : p.credits db.ledger = p.amount := if_neg hcredit
    -- and for a new one the loss is new too
    have hloss : ¬ Table.Has db.ledger p.lossKey := fun h =>
      hcredit (hcredited p.sourceType p.sourceId hp.sourceType h)
    have hforfeits : p.forfeits db.ledger
        = max (db.ledger.balance p.account (some p.effectiveDate) + p.amount - cap) 0 := by
      simp only [Posting.forfeits]
      rw [if_neg hloss, hcap]
      rfl
    rw [hamount, hforfeits]
    simp only [Ledger.later]
    constructor
    · intro h _
      omega
    · intro h
      have := h hcredit
      omega

/-! ## Runs

The steps of a run that do not post credits to the account leave its balance
alone, so the only thing to watch are its new credits. The example delivers two
payrolls in the wrong order and in the right one. -/

/-- The policy has a single version, with this cap. -/
def Catalog.CappedAt (c : Catalog) (policyId : Uuid) (cap : Int) : Prop :=
  (c.versionsOf policyId).map (·.maxBalanceMinutes) = [some cap]

instance (c : Catalog) (policyId : Uuid) (cap : Int) : Decidable (c.CappedAt policyId cap) :=
  inferInstanceAs (Decidable (_ = _))

/-- The account has only entries that accrual jobs posted. -/
def Ledger.OnlyAccruals (ledger : Ledger) (a : Account) : Prop :=
  ∀ e ∈ ledger.rows, e.account = a → e.sourceType.IsAccrual

instance (ledger : Ledger) (a : Account) : Decidable (ledger.OnlyAccruals a) :=
  inferInstanceAs (Decidable (∀ e ∈ ledger.rows, _ → _))

/-- A step whose new credits to the account fit under the cap. -/
def CapSafe (dir : Directory) (a : Account) (db : Db) (op : Op) : Prop :=
  op.PostsWithin (fun ledger p => p.account = a → p.Fits ledger) dir db

instance (dir : Directory) (a : Account) (db : Db) (op : Op) : Decidable (CapSafe dir a db op) :=
  inferInstanceAs (Decidable (op.PostsWithin _ dir db))

/-- Entries that stay out of an account leave its balance alone. -/
theorem Db.balance_posts_of_absent {db : Db} {es : List LedgerEntry} {a : Account}
    {asOf : Option Date} (h : ∀ e ∈ es, e ∈ (db.posts es).ledger.rows → e.account ≠ a) :
    (db.posts es).ledger.balance a asOf = db.ledger.balance a asOf := by
  induction es generalizing db with
  | nil => rfl
  | cons e es ih =>
    have hrest : ((db.post e).posts es).ledger.balance a asOf = (db.post e).ledger.balance a asOf :=
      ih fun f hf => h f (List.mem_cons_of_mem _ hf)
    rw [posts_cons, hrest]
    by_cases hhas : Table.Has db.ledger e.key
    · rw [post_of_has hhas]
    · refine balance_post_of_ne (h e (List.mem_cons_self ..) ?_)
      -- a new entry is in the ledger from then on
      obtain ⟨new, hnew⟩ := posts_rows es (db.post e)
      rw [posts_cons, hnew, post_ledger, Table.rows_insertNew hhas]
      simp

/-- What the cap of an account rests on. -/
structure CapInvariant (a : Account) (cap : Int) (db : Db) : Prop where
  credited : LossesCredited db.ledger
  le_cap : (∀ v ∈ db.catalog.versions.rows, v.policyId = a.policyId →
      v.maxBalanceMinutes = some cap) →
    db.ledger.OnlyAccruals a → db.ledger.balance a none ≤ cap

namespace CapInvariant

variable {dir : Directory} {a : Account} {cap : Int} {db db' : Db} {op : Op}

/-- An empty ledger is within every cap. -/
theorem empty (hcap : 0 ≤ cap) : CapInvariant a cap .empty :=
  ⟨lossesCredited_empty, fun _ _ => hcap⟩

/-- A step with fitting credits keeps it. -/
theorem step (h : CapInvariant a cap db) (hgrows : db.catalog.Grows db'.catalog)
    (heffect : LedgerEffect dir db op db') (hsafe : CapSafe dir a db op) :
    CapInvariant a cap db' := by
  refine ⟨h.credited.step heffect, ?_⟩
  intro hcaps honly
  have hcaps' := fun v hv => hcaps v (hgrows.subset hv)
  have hle := h.le_cap hcaps' fun e he => honly e (heffect.subset he)
  cases heffect with
  | accrual ps hplan hledger =>
    have hinv : LossesCredited (db.postAccruals ps).ledger ∧
        (db.postAccruals ps).ledger.balance a none ≤ cap := by
      refine (hsafe.each hplan).invariant
        (I := fun db => LossesCredited db.ledger ∧ db.ledger.balance a none ≤ cap)
        ⟨h.credited, hle⟩ ?_
      rintro p hp db ⟨hcredited, hle⟩ hfits
      have hissued := issued_of_postings hplan hp
      refine ⟨hcredited.postAccrual hissued, ?_⟩
      by_cases ha : p.account = a
      · obtain ⟨v, hv, hpolicy, hmax⟩ := hissued.version
        have hcap : p.maxBalanceMinutes = some cap :=
          hmax.symm.trans (hcaps' v hv (hpolicy.trans (congrArg Account.policyId ha)))
        subst ha
        exact (Db.le_cap_postAccrual_iff hcredited hissued hcap hle).mpr (hfits rfl)
      · rw [Db.balance_postAccrual_of_ne ha]
        exact hle
    rw [hledger]
    exact hinv.2
  | other es hes hledger =>
    rw [hledger] at honly ⊢
    rw [Db.balance_posts_of_absent fun e he hmem ha => hes e he (honly e hmem ha)]
    exact hle

end CapInvariant

/-- In a run whose new credits fit under the cap, an account with accruals only
never holds more than the cap. -/
theorem balance_le_cap {dir : Directory} {a : Account} {cap : Int} {l : List (Db × Op × Db)}
    {db : Db} (h : Run dir .empty l db) (hcap : db.catalog.CappedAt a.policyId cap)
    (honly : db.ledger.OnlyAccruals a) (hsafe : ∀ x ∈ l, CapSafe dir a x.1 x.2.1) :
    ∀ x ∈ l, x.2.2.ledger.balance a none ≤ cap := by
  have hcaps : ∀ v ∈ db.catalog.versions.rows, v.policyId = a.policyId →
      v.maxBalanceMinutes = some cap := by
    intro v hv hpolicy
    have hmem : v ∈ db.catalog.versionsOf a.policyId := Catalog.mem_versionsOf.mpr ⟨hv, hpolicy⟩
    have hmax := List.mem_map_of_mem (f := (·.maxBalanceMinutes)) hmem
    rw [hcap] at hmax
    exact List.mem_singleton.mp hmax
  -- there is a version, and its cap is positive
  have hmax : some cap ∈ (db.catalog.versionsOf a.policyId).map (·.maxBalanceMinutes) := by
    rw [hcap]
    exact List.mem_singleton.mpr rfl
  obtain ⟨v, hmem, hvcap⟩ := List.mem_map.mp hmax
  have hvalid := Reachable.valid ⟨l, h⟩
  have hpos := (hvalid v (Catalog.mem_versionsOf.mp hmem).1).max_pos cap hvcap
  intro x hx
  have hinv := h.guarded (CapSafe dir a) (CapInvariant.empty (le_of_lt hpos))
    (fun hinv hsafe hstep => hinv.step (effect_of_step hstep).grows (effect_of_step hstep).onLedger
      hsafe) hsafe x hx
  exact hinv.le_cap (fun v hv => hcaps v ((h.grows hx).subset hv))
    fun e he => honly e (h.ledger_subset x hx he)

namespace Demo

/-- Ada is paid by the minute, with at most 900 minutes kept. -/
def paidByTheMinute : List Op :=
  openPolicy { effectiveFrom := ofYmd 2026 1 1, kind := .ACCRUAL, maxBalanceMinutes := some 900 }
    [{ method := .HOURS_WORKED, amount := 1, unit := .HOUR, perMinutesWorked := some 60
       id := ruleId }]

/-- Ada works 900 minutes in February and 480 in January. -/
def february : Op :=
  .onPayrollProcessed "cmp_warp_demo" "run-2" (ofYmd 2026 2 28) ⟨[("emp_ada", 900)], by decide⟩

def january : Op :=
  .onPayrollProcessed "cmp_warp_demo" "run-1" (ofYmd 2026 1 31) ⟨[("emp_ada", 480)], by decide⟩

end Demo

/-- The payroll of January is delivered after that of February, and its minutes
come on top of a full account. -/
theorem balance_exceeds_cap :
    ¬ ∀ (dir : Directory) (a : Account) (cap : Int) (l : List (Db × Op × Db)) (db : Db),
      Run dir .empty l db → db.catalog.CappedAt a.policyId cap → db.ledger.OnlyAccruals a →
      ∀ x ∈ l, x.2.2.ledger.balance a none ≤ cap := by
  intro hclaim
  have hrun : (Op.runAll Demo.directory
      (Demo.paidByTheMinute ++ [Demo.february, Demo.january]) .empty).passes (fun r =>
        r.2.catalog.CappedAt Demo.account.policyId 900 ∧ r.2.ledger.OnlyAccruals Demo.account ∧
          900 < r.2.ledger.balance Demo.account none) = true := by
    decide +kernel
  obtain ⟨⟨l, db⟩, hrun, htest⟩ := Except.ok_of_passes hrun
  obtain ⟨hcap, honly, hover⟩ := of_decide_eq_true htest
  have hl := run_of_runAll hrun
  have hle : db.ledger.balance Demo.account none ≤ 900 :=
    hl.last_of_forall (G := fun db => db.ledger.balance Demo.account none ≤ 900) (by decide)
      (hclaim _ _ _ l db hl hcap honly)
  exact absurd hover (not_lt.mpr hle)

/-- Delivered in the order of their dates, the two payrolls fill the account and
no more. -/
theorem balance_le_cap_in_order :
    ∃ l db, Run Demo.directory .empty l db ∧
      ∀ x ∈ l, x.2.2.ledger.balance Demo.account none ≤ 900 := by
  have hrun : (Op.runAll Demo.directory
      (Demo.paidByTheMinute ++ [Demo.january, Demo.february]) .empty).passes (fun r =>
        r.2.catalog.CappedAt Demo.account.policyId 900 ∧ r.2.ledger.OnlyAccruals Demo.account ∧
          ∀ x ∈ r.1, CapSafe Demo.directory Demo.account x.1 x.2.1) = true := by
    decide +kernel
  obtain ⟨⟨l, db⟩, hrun, htest⟩ := Except.ok_of_passes hrun
  obtain ⟨hcap, honly, hsafe⟩ := of_decide_eq_true htest
  have hl := run_of_runAll hrun
  exact ⟨l, db, hl, balance_le_cap hl hcap honly hsafe⟩

/-! ## New credits

A posting adds its credit and takes a loss; the loss is the larger of the two
only if the cap is below what the account held by the date. -/

/-- What a posting takes back is at most what it credits, unless the cap finds
the account above it already. -/
theorem Posting.forfeits_le_iff {ledger : Ledger} {p : Posting} (hamount : 0 ≤ p.amount) :
    p.forfeits ledger ≤ p.amount ↔ ∀ cap ∈ p.maxBalanceMinutes,
      ledger.balance p.account (some p.effectiveDate) ≤ cap ∨ Table.Has ledger p.lossKey := by
  simp only [Posting.forfeits]
  by_cases hloss : Table.Has ledger p.lossKey
  · rw [if_pos hloss]
    exact ⟨fun _ _ _ => Or.inr hloss, fun _ => hamount⟩
  · rw [if_neg hloss]
    cases hcap : p.maxBalanceMinutes with
    | none => exact ⟨fun _ cap hmem => absurd hmem (Option.not_mem_none cap), fun _ => hamount⟩
    | some cap =>
      simp only [Option.map_some, Option.getD_some, Option.mem_def, Option.some.injEq, forall_eq',
        hloss, or_false]
      omega

/-- A new credit lowers neither balance of its account exactly when the cap does
not find it above already. -/
theorem AccrualService.new_credit_keeps_balance_iff {db db' : Db} {p : Posting} {created : Int}
    (hrun : Tx.run (AccrualService.postAccrual p) db = .ok (created, db'))
    (hamount : 0 ≤ p.amount) (hnew : ¬ Table.Has db.ledger p.credit.key) :
    (db.ledger.balance p.account none ≤ db'.ledger.balance p.account none ∧
      db.ledger.balance p.account (some p.effectiveDate)
        ≤ db'.ledger.balance p.account (some p.effectiveDate)) ↔
      ∀ cap ∈ p.maxBalanceMinutes,
        db.ledger.balance p.account (some p.effectiveDate) ≤ cap ∨
          Table.Has db.ledger p.lossKey := by
  rw [AccrualService.run_postAccrual] at hrun
  cases hrun
  have hcredits : p.credits db.ledger = p.amount := if_neg hnew
  have htotal : (db.postAccrual p).ledger.balance p.account none
      = db.ledger.balance p.account none + p.credits db.ledger - p.forfeits db.ledger :=
    Db.total_postAccrual
  have hday : (db.postAccrual p).ledger.balance p.account (some p.effectiveDate)
      = db.ledger.balance p.account (some p.effectiveDate)
        + (p.credits db.ledger - p.forfeits db.ledger) := by
    rw [Db.balance_postAccrual, if_pos]
    intro day hmem
    exact le_of_eq (Option.some.inj hmem)
  rw [← Posting.forfeits_le_iff hamount, htotal, hday, hcredits]
  omega

namespace Demo

/-- From February on, at most 900 minutes are kept. -/
def capped : Op :=
  .catalog (.updatePolicy policyId nextVersionId none
    { effectiveFrom := ofYmd 2026 2 1, kind := .ACCRUAL, maxBalanceMinutes := some 900 }
    [{ method := .HOURS_WORKED, amount := 1, unit := .HOUR, perMinutesWorked := some 60
       id := nextRuleId }])

/-- Ada works in January, without a cap. -/
def januaryThenCapped (minutesWorked : Int) : List Op :=
  hourly ++
    [ .onPayrollProcessed "cmp_warp_demo" "run-1" (ofYmd 2026 1 31)
        (.singleton ("emp_ada", minutesWorked)),
      capped ]

/-- A day of work in February, under the cap. -/
def februaryDay : Posting where
  companyId := "cmp_warp_demo"
  employeeId := "emp_ada"
  policyId := policyId
  policyVersionId := nextVersionId
  effectiveDate := ofYmd 2026 2 28
  sourceType := .PAYROLL_ACCRUAL
  sourceId := AccrualService.payrollSource "run-2" "emp_ada" nextRuleId
  amount := 480
  maxBalanceMinutes := some 900
  note := "480 minutes worked"

end Demo

/-- With 960 minutes earned before there was a cap, a day of work costs
sixty. -/
theorem new_credit_lowers_balance :
    ¬ ∀ (dir : Directory) (db db' : Db) (p : Posting) (created : Int), Reachable dir db →
      Tx.run (AccrualService.postAccrual p) db = .ok (created, db') →
      0 ≤ p.amount → (∀ cap ∈ p.maxBalanceMinutes, 0 < cap) →
      ¬ Table.Has db.ledger p.credit.key →
        db.ledger.balance p.account none ≤ db'.ledger.balance p.account none ∧
          db.ledger.balance p.account (some p.effectiveDate)
            ≤ db'.ledger.balance p.account (some p.effectiveDate) := by
  intro hclaim
  have hrun : (Op.runThen Demo.directory (Demo.januaryThenCapped 960)
      (AccrualService.postAccrual Demo.februaryDay)).passes (fun r =>
        ¬ Table.Has r.1.ledger Demo.februaryDay.credit.key ∧
          r.2.2.ledger.balance Demo.account none
            < r.1.ledger.balance Demo.account none) = true := by
    decide +kernel
  obtain ⟨⟨db, created, db'⟩, hr, htest⟩ := Except.ok_of_passes hrun
  obtain ⟨hnew, hlt⟩ := of_decide_eq_true htest
  obtain ⟨hreach, hpost⟩ := ok_of_runThen hr
  have hle := hclaim _ db db' Demo.februaryDay created hreach hpost (by decide) (by decide) hnew
  exact absurd hle.1 (not_le.mpr hlt)

/-- With 480 minutes earned, it brings the account to the cap. -/
theorem new_credit_keeps_balance :
    ∃ db db' : Db, Reachable Demo.directory db ∧
      db.ledger.balance Demo.account none ≤ db'.ledger.balance Demo.account none := by
  have hrun : (Op.runThen Demo.directory (Demo.januaryThenCapped 480)
      (AccrualService.postAccrual Demo.februaryDay)).passes (fun r =>
        ¬ Table.Has r.1.ledger Demo.februaryDay.credit.key ∧
          ∀ cap ∈ Demo.februaryDay.maxBalanceMinutes,
            r.1.ledger.balance Demo.februaryDay.account (some Demo.februaryDay.effectiveDate)
              ≤ cap ∨ Table.Has r.1.ledger Demo.februaryDay.lossKey) = true := by
    decide +kernel
  obtain ⟨⟨db, created, db'⟩, hr, htest⟩ := Except.ok_of_passes hrun
  obtain ⟨hnew, hfits⟩ := of_decide_eq_true htest
  obtain ⟨hreach, hpost⟩ := ok_of_runThen hr
  exact ⟨db, db', hreach,
    ((AccrualService.new_credit_keeps_balance_iff hpost (by decide) hnew).mpr hfits).1⟩

end TimeOff
