import TimeOff.Accrual.Balances
import TimeOff.Accrual.Postings
import TimeOff.Requests.Holds

/-!
# Balances that may not go negative

Requests cannot overdraw an account: an approval checks the balance less all
holds, its own included. Jobs can. A rollover expires the balance of the year's
last day, and a cap takes back what does not fit on the day of a credit; both
look at the balance up to a date and may expire minutes that later entries have
used already. `nonneg_postAccrual_iff` and `nonneg_closeAccount_iff` say exactly
when one of them does, and `balance_nonneg` that nothing else goes wrong.

For a run this becomes an invariant with a guard. `FloorInvariant` holds what a
step needs: the balances of the policy are not negative, its holds are the
outstanding requests, the snapshots are exact, and the requests and their legs
are in order. The guard `FloorSafe` is asked of the postings and closings of a
step, each on the ledger it meets. By cases on the step:

- an approval leaves at least the floor, which is zero, in an exact snapshot,
  and other pending requests have their minutes on hold;
- a cancellation gives back, a denial does nothing, a submission posts nothing;
- a job or a rollover is safe by the guard.
-/

namespace TimeOff

open Gregorian

/-! ## Caps

A credit adds minutes and its loss takes some of them back. The loss may be too
much only if entries dated later have used what the balance on the credit date
still shows. -/

/-- The cap loss of a posting leaves the minutes that later entries have used. -/
def Posting.Spares (ledger : Ledger) (p : Posting) : Prop :=
  ¬ Table.Has ledger p.lossKey → ∀ cap ∈ p.maxBalanceMinutes,
    cap < ledger.balance p.account (some p.effectiveDate) + p.amount →
      p.amount - p.credits ledger ≤ cap + ledger.later p.account p.effectiveDate

instance (ledger : Ledger) (p : Posting) : Decidable (p.Spares ledger) :=
  inferInstanceAs (Decidable (¬ _ → ∀ cap ∈ p.maxBalanceMinutes, _ → _))

namespace Db

variable {db : Db} {p : Posting} {ps : List Posting}

/-- A posting keeps the total at zero or above exactly when it spares what later
entries have used. -/
theorem nonneg_postAccrual_iff (hamount : 0 ≤ p.amount)
    (htotal : 0 ≤ db.ledger.balance p.account none) :
    0 ≤ (db.postAccrual p).ledger.balance p.account none ↔ p.Spares db.ledger := by
  have hcredits : 0 ≤ p.credits db.ledger := by
    simp only [Posting.credits]
    split
    · exact le_refl 0
    · exact hamount
  rw [total_postAccrual]
  simp only [Posting.Spares, Posting.forfeits, Ledger.later]
  -- without a loss the total only grows
  by_cases hloss : Table.Has db.ledger p.lossKey
  · rw [if_pos hloss]
    constructor
    · intro _ hnot
      exact absurd hloss hnot
    · intro _
      omega
  · rw [if_neg hloss]
    cases hcap : p.maxBalanceMinutes with
    | none =>
      constructor
      · intro _ _ cap hmem
        cases hmem
      · intro _
        show 0 ≤ _ + _ - 0
        omega
    | some cap =>
      simp only [Option.map_some, Option.getD_some, Option.mem_def, Option.some.injEq,
        forall_eq', hloss, not_false_eq_true, true_implies]
      constructor
      · intro hnonneg hlt
        omega
      · intro hspares
        by_cases hlt : cap < db.ledger.balance p.account (some p.effectiveDate) + p.amount
        · have hle := hspares hlt
          omega
        · omega

end Db

/-! ## Closings

What a closing adds to the total is what it carries over less what expires, each
unless its source is taken. The entries dated later are what is left of the
total besides. -/

/-- The source of a closing's leg. -/
def RolloverService.closingKey (assignment : PolicyAssignment) (periodEnd : Date)
    (suffix : String) : SourceKey :=
  (.PERIOD_ROLLOVER, closingSource assignment.policyId assignment.employeeId periodEnd suffix)

def PolicyAssignment.account (assignment : PolicyAssignment) : Account :=
  ⟨assignment.employeeId, assignment.policyId⟩

/-- Closing an account leaves the minutes that later entries have used. -/
def Db.ClosesSafely (periodEnd : Date) (assignment : PolicyAssignment) (db : Db) : Prop :=
  ∀ v ∈ db.catalog.versionEffectiveOn assignment.policyId periodEnd, v.kind ≠ .UNLIMITED →
    0 < db.ledger.balance assignment.account (some periodEnd) →
      ¬ Table.Has db.ledger (RolloverService.closingKey assignment periodEnd "expiration") →
        ∀ carried ∈ carriedMinutes (db.ledger.balance assignment.account (some periodEnd))
          v.carryoverCapMinutes v.expiresAtPeriodEnd,
          0 ≤ db.ledger.later assignment.account periodEnd +
            if Table.Has db.ledger (RolloverService.closingKey assignment periodEnd "carryover")
            then 0 else carried

instance (periodEnd : Date) (assignment : PolicyAssignment) (db : Db) :
    Decidable (db.ClosesSafely periodEnd assignment) :=
  inferInstanceAs (Decidable
    (∀ v ∈ db.catalog.versionEffectiveOn assignment.policyId periodEnd, _ → _ → ¬ _ →
      ∀ carried ∈ carriedMinutes (db.ledger.balance assignment.account (some periodEnd))
        v.carryoverCapMinutes v.expiresAtPeriodEnd, _))

namespace RolloverService

variable {companyId : String} {assignment : PolicyAssignment} {v : PolicyVersion}
  {periodEnd : Date} {balance carried : Int}

/-- What is not positive is not closed. -/
theorem closingEntries_of_nonpos (h : balance ≤ 0) :
    closingEntries companyId assignment v periodEnd balance = [] := by
  simp only [closingEntries, plan]
  rw [if_pos h]
  rfl

/-- Nor what neither expires nor is capped. -/
theorem closingEntries_of_none
    (h : carriedMinutes balance v.carryoverCapMinutes v.expiresAtPeriodEnd = none) :
    closingEntries companyId assignment v periodEnd balance = [] := by
  simp only [closingEntries, plan]
  rw [h]
  simp

/-- Otherwise all of it expires, and what is carried over comes back. -/
theorem closingEntries_eq (hbalance : 0 < balance)
    (h : carriedMinutes balance v.carryoverCapMinutes v.expiresAtPeriodEnd = some carried) :
    closingEntries companyId assignment v periodEnd balance
      = closingEntry companyId assignment v periodEnd (expirationEntry balance periodEnd) ::
        if carried ≠ 0 then [closingEntry companyId assignment v periodEnd
          (carryoverEntry carried periodEnd)] else [] := by
  simp only [closingEntries, plan]
  rw [if_neg (not_le.mpr hbalance), h]
  dsimp only
  split <;> rfl

end RolloverService

namespace Db

variable {db : Db} {companyId : String} {assignment : PolicyAssignment} {v : PolicyVersion}
  {periodEnd : Date} {a : Account} {balance carried : Int}

/-- Caps in range carry over no negative minutes. -/
theorem carriedMinutes_nonneg (hv : v.Valid) (hbalance : 0 < balance)
    (h : carriedMinutes balance v.carryoverCapMinutes v.expiresAtPeriodEnd = some carried) :
    0 ≤ carried := by
  simp only [carriedMinutes] at h
  split at h
  · cases h
    exact le_refl 0
  · obtain ⟨cap, hcap, rfl⟩ := Option.map_eq_some_iff.mp h
    have hnonneg := hv.carryover_nonneg cap hcap
    omega

/-- A closing posts its two legs, each unless its source is taken; a carryover
of nothing should not count. -/
theorem sum_closing {w : LedgerEntry → Int} (hbalance : 0 < balance)
    (h : carriedMinutes balance v.carryoverCapMinutes v.expiresAtPeriodEnd = some carried)
    (hzero : carried = 0 → w (RolloverService.closingEntry companyId assignment v periodEnd
      (carryoverEntry carried periodEnd)) = 0) :
    Table.sum (db.posts (RolloverService.closingEntries companyId assignment v periodEnd
        balance)).ledger w
      = Table.sum db.ledger w
        + (if Table.Has db.ledger (RolloverService.closingKey assignment periodEnd "expiration")
            then 0
            else w (RolloverService.closingEntry companyId assignment v periodEnd
              (expirationEntry balance periodEnd)))
        + if Table.Has db.ledger (RolloverService.closingKey assignment periodEnd "carryover")
            then 0
            else w (RolloverService.closingEntry companyId assignment v periodEnd
              (carryoverEntry carried periodEnd)) := by
  -- the expiration does not take the source of the carryover
  have hne : RolloverService.closingKey assignment periodEnd "carryover"
      ≠ RolloverService.closingKey assignment periodEnd "expiration" := by
    intro heq
    have hsuffix := (String.append_right_inj _).mp (Prod.mk.inj heq).2
    exact absurd hsuffix (by decide)
  have hexpiration : Table.sum (db.post (RolloverService.closingEntry companyId assignment v
        periodEnd (expirationEntry balance periodEnd))).ledger w
      = Table.sum db.ledger w
        + if Table.Has db.ledger (RolloverService.closingKey assignment periodEnd "expiration")
            then 0
            else w (RolloverService.closingEntry companyId assignment v periodEnd
              (expirationEntry balance periodEnd)) := sum_post
  rw [RolloverService.closingEntries_eq hbalance h, posts_cons]
  by_cases hcarried : carried = 0
  · rw [if_neg (not_not.mpr hcarried), hzero hcarried, ite_self, Int.add_zero]
    exact hexpiration
  · rw [if_pos hcarried]
    show Table.sum ((db.post _).post _).ledger w = _
    rw [sum_post, hexpiration, post_ledger]
    have hhas : Table.Has (Table.insertNew db.ledger (RolloverService.closingEntry companyId
          assignment v periodEnd (expirationEntry balance periodEnd)))
          (RolloverService.closingKey assignment periodEnd "carryover") ↔
        Table.Has db.ledger (RolloverService.closingKey assignment periodEnd "carryover") := by
      rw [Table.has_insertNew]
      exact or_iff_left hne
    congr 1
    exact if_congr hhas rfl rfl

/-- What a closing does to a balance, up to a date or in total. -/
theorem balance_closing {asOf : Option Date} (hbalance : 0 < balance)
    (h : carriedMinutes balance v.carryoverCapMinutes v.expiresAtPeriodEnd = some carried) :
    (db.posts (RolloverService.closingEntries companyId assignment v periodEnd
        balance)).ledger.balance a asOf
      = db.ledger.balance a asOf
        + (if Table.Has db.ledger (RolloverService.closingKey assignment periodEnd "expiration")
            then 0
            else Ledger.part a asOf (RolloverService.closingEntry companyId assignment v periodEnd
              (expirationEntry balance periodEnd)))
        + if Table.Has db.ledger (RolloverService.closingKey assignment periodEnd "carryover")
            then 0
            else Ledger.part a asOf (RolloverService.closingEntry companyId assignment v periodEnd
              (carryoverEntry carried periodEnd)) := by
  refine sum_closing hbalance h fun hcarried => ?_
  rw [hcarried]
  exact ite_self _

/-- A closing takes the year-end balance and gives back what is carried, each
under a source of its own. -/
theorem total_closing (hbalance : 0 < balance)
    (h : carriedMinutes balance v.carryoverCapMinutes v.expiresAtPeriodEnd = some carried) :
    (db.posts (RolloverService.closingEntries companyId assignment v periodEnd
        balance)).ledger.balance assignment.account none
      = db.ledger.balance assignment.account none
        - (if Table.Has db.ledger (RolloverService.closingKey assignment periodEnd "expiration")
            then 0 else balance)
        + if Table.Has db.ledger (RolloverService.closingKey assignment periodEnd "carryover")
            then 0 else carried := by
  have hexpiration : Ledger.part assignment.account none (RolloverService.closingEntry companyId
      assignment v periodEnd (expirationEntry balance periodEnd)) = -balance := Ledger.part_self rfl
  have hcarryover : Ledger.part assignment.account none (RolloverService.closingEntry companyId
      assignment v periodEnd (carryoverEntry carried periodEnd)) = carried := Ledger.part_self rfl
  rw [balance_closing hbalance h, hexpiration, hcarryover]
  split <;> omega

/-- Closing an account keeps its total at zero or above exactly when it closes
safely. -/
theorem nonneg_closeAccount_iff (hvalid : ∀ v ∈ db.catalog.versions.rows, v.Valid)
    (htotal : 0 ≤ db.ledger.balance assignment.account none) :
    0 ≤ (db.closeAccount companyId periodEnd assignment).ledger.balance assignment.account none ↔
      db.ClosesSafely periodEnd assignment := by
  simp only [closeAccount, ClosesSafely]
  cases hv : db.catalog.versionEffectiveOn assignment.policyId periodEnd with
  | none =>
    constructor
    · intro _ v h
      cases h
    · intro _
      exact htotal
  | some v =>
  have hv' := hvalid v (Catalog.versionEffectiveOn_spec hv).1
  simp only [Option.mem_def, Option.some.injEq, forall_eq']
  by_cases hkind : v.kind = .UNLIMITED
  · rw [if_pos hkind]
    exact ⟨fun _ h => absurd hkind h, fun _ => htotal⟩
  · rw [if_neg hkind]
    by_cases hbalance : 0 < db.ledger.balance assignment.account (some periodEnd)
    · cases hcarried : carriedMinutes (db.ledger.balance assignment.account (some periodEnd))
          v.carryoverCapMinutes v.expiresAtPeriodEnd with
      | none =>
        show 0 ≤ (db.posts (RolloverService.closingEntries companyId assignment v periodEnd
          (db.ledger.balance assignment.account (some periodEnd)))).ledger.balance _ _ ↔ _
        rw [RolloverService.closingEntries_of_none hcarried]
        constructor
        · intro _ _ _ _ carried h
          cases h
        · intro _
          exact htotal
      | some carried =>
        have hnonneg := carriedMinutes_nonneg hv' hbalance hcarried
        show 0 ≤ (db.posts (RolloverService.closingEntries companyId assignment v periodEnd
          (db.ledger.balance assignment.account (some periodEnd)))).ledger.balance _ _ ↔ _
        -- the total after the closing: what was dated later, and what is carried over
        rw [total_closing hbalance hcarried]
        simp only [Ledger.later]
        simp only [Option.some.injEq, forall_eq', hkind, hbalance, not_false_eq_true, true_implies,
          ne_eq]
        by_cases hexpired : Table.Has db.ledger
            (RolloverService.closingKey assignment periodEnd "expiration")
        · rw [if_pos hexpired]
          -- the year was closed before, and nothing can expire again
          constructor
          · intro _ hnot
            exact absurd hexpired hnot
          · intro _
            split <;> omega
        · rw [if_neg hexpired]
          constructor
          · intro h _
            omega
          · intro h
            have := h hexpired
            omega
    · show 0 ≤ (db.posts (RolloverService.closingEntries companyId assignment v periodEnd
        (db.ledger.balance assignment.account (some periodEnd)))).ledger.balance _ _ ↔ _
      rw [RolloverService.closingEntries_of_nonpos (not_lt.mp hbalance)]
      exact ⟨fun _ _ h => absurd h hbalance, fun _ => htotal⟩

/-- Other accounts are not closed with it. -/
theorem balance_closeAccount_of_ne (h : assignment.account ≠ a) {asOf : Option Date} :
    (db.closeAccount companyId periodEnd assignment).ledger.balance a asOf
      = db.ledger.balance a asOf := by
  obtain ⟨es, heq, hes⟩ := closeAccount_eq_posts companyId periodEnd assignment db
  rw [heq]
  refine balance_posts_of_ne fun e he => ?_
  obtain ⟨version, balance, -, hclosing⟩ := hes e he
  obtain ⟨entry, -, rfl⟩ := List.mem_map.mp hclosing
  exact h

end Db

/-! ## Jobs

A job is a list of postings or of closings, so it is enough that each of them is
safe on the ledger it meets. -/

/-- No account of the policy is below zero. -/
def Solvent (policyId : Uuid) (db : Db) : Prop :=
  ∀ employeeId, 0 ≤ db.ledger.balance ⟨employeeId, policyId⟩ none

namespace Db

/-- Every closing under the policy is safe in the database it meets. -/
def AllCloseSafely (companyId : String) (policyId : Uuid) (periodEnd : Date) :
    List PolicyAssignment → Db → Prop
  | [], _ => True
  | x :: xs, db =>
    (x.policyId = policyId → db.ClosesSafely periodEnd x) ∧
      AllCloseSafely companyId policyId periodEnd xs (db.closeAccount companyId periodEnd x)

/-- It can be decided closing by closing. -/
def decidableAllCloseSafely (companyId : String) (policyId : Uuid) (periodEnd : Date) :
    (xs : List PolicyAssignment) → (db : Db) →
      Decidable (AllCloseSafely companyId policyId periodEnd xs db)
  | [], _ => isTrue trivial
  | _ :: xs, db => @instDecidableAnd _ _ _
    (decidableAllCloseSafely companyId policyId periodEnd xs
      (db.closeAccount companyId periodEnd _))

instance (companyId : String) (policyId : Uuid) (periodEnd : Date) (xs : List PolicyAssignment)
    (db : Db) : Decidable (AllCloseSafely companyId policyId periodEnd xs db) :=
  decidableAllCloseSafely companyId policyId periodEnd xs db

end Db

/-- Postings to other policies, and those that spare later entries, leave no
account of the policy below zero. -/
theorem Solvent.postAccrual {policyId : Uuid} {db : Db} {p : Posting} (h : Solvent policyId db)
    (hamount : 0 ≤ p.amount) (hspare : p.policyId = policyId → p.Spares db.ledger) :
    Solvent policyId (db.postAccrual p) := by
  intro employeeId
  by_cases ha : p.account = ⟨employeeId, policyId⟩
  · have hpolicy : p.policyId = policyId := congrArg Account.policyId ha
    rw [← ha]
    refine (Db.nonneg_postAccrual_iff hamount ?_).mpr (hspare hpolicy)
    rw [ha]
    exact h employeeId
  · rw [Db.balance_postAccrual_of_ne ha]
    exact h employeeId

/-- Safe closings keep the accounts solvent. -/
theorem Solvent.closeAccounts {policyId : Uuid} {db : Db} {companyId : String} {periodEnd : Date}
    {assignments : List PolicyAssignment} (h : Solvent policyId db)
    (hvalid : ∀ v ∈ db.catalog.versions.rows, v.Valid)
    (hsafe : Db.AllCloseSafely companyId policyId periodEnd assignments db) :
    Solvent policyId (db.closeAccounts companyId periodEnd assignments) := by
  induction assignments generalizing db with
  | nil => exact h
  | cons x rest ih =>
    obtain ⟨hx, hrest⟩ := hsafe
    rw [Db.closeAccounts_cons]
    refine ih ?_ ?_ hrest
    · intro employeeId
      by_cases ha : x.account = ⟨employeeId, policyId⟩
      · have hpolicy : x.policyId = policyId := congrArg Account.policyId ha
        rw [← ha]
        refine (Db.nonneg_closeAccount_iff hvalid ?_).mpr (hx hpolicy)
        rw [ha]
        exact h employeeId
      · rw [Db.balance_closeAccount_of_ne ha]
        exact h employeeId
    · rw [Db.closeAccount_catalog]
      exact hvalid

/-! ## Runs

Under versions that forbid a debt, requests keep the total non-negative by their
own check. So only closings and capped postings have to be looked at. -/

/-- All versions of the policy keep balances and forbid negative ones. -/
def Catalog.ForbidsNegative (c : Catalog) (policyId : Uuid) : Prop :=
  ∀ v ∈ c.versions.rows, v.policyId = policyId → v.kind = .ACCRUAL ∧ v.allowNegative = false

instance (c : Catalog) (policyId : Uuid) : Decidable (c.ForbidsNegative policyId) :=
  inferInstanceAs (Decidable (∀ v ∈ c.versions.rows, _ → _))

/-- What the versions forbid at the end they forbade all along. -/
theorem Catalog.ForbidsNegative.of_grows {c d : Catalog} {policyId : Uuid}
    (h : d.ForbidsNegative policyId) (hcd : c.Grows d) : c.ForbidsNegative policyId :=
  fun v hv => h v (hcd.subset hv)

/-- A rollover whose closings under the policy leave the minutes that later
entries have used. -/
def Op.ClosesSafely (policyId : Uuid) (db : Db) : Op → Prop
  | .rollover companyId asOf =>
    db.AllCloseSafely companyId policyId (RolloverService.closingDay asOf)
      (db.catalog.assignmentsCovering companyId none (RolloverService.closingDay asOf))
  | _ => True

instance (policyId : Uuid) (db : Db) (op : Op) : Decidable (op.ClosesSafely policyId db) :=
  match op with
  | .rollover .. => inferInstanceAs (Decidable (Db.AllCloseSafely ..))
  | .catalog _ | .submit .. | .decide .. | .cancel .. | .runScheduled .. | .onPayrollProcessed .. =>
    isTrue trivial

/-- A step whose caps and closings leave the minutes that later entries of the
policy have used. -/
def FloorSafe (dir : Directory) (policyId : Uuid) (db : Db) (op : Op) : Prop :=
  op.PostsWithin (fun ledger p => p.policyId = policyId → p.Spares ledger) dir db ∧
    op.ClosesSafely policyId db

instance (dir : Directory) (policyId : Uuid) (db : Db) (op : Op) :
    Decidable (FloorSafe dir policyId db op) := inferInstanceAs (Decidable (_ ∧ _))

/-- What the floor of a policy rests on. -/
structure FloorInvariant (policyId : Uuid) (db : Db) : Prop where
  wellFormed : RequestsWellFormed db
  legs : LegsPosted db
  snapshots : SnapshotsExact db
  valid : ∀ v ∈ db.catalog.versions.rows, v.Valid
  holds : db.catalog.ForbidsNegative policyId → ∀ employeeId,
    db.hold ⟨employeeId, policyId⟩ = db.outstanding ⟨employeeId, policyId⟩
  solvent : db.catalog.ForbidsNegative policyId → Solvent policyId db

/-- Nothing has been posted or requested. -/
theorem FloorInvariant.empty (policyId : Uuid) : FloorInvariant policyId .empty where
  wellFormed := requestsWellFormed_empty
  legs := legsPosted_empty
  snapshots := snapshotsExact_empty
  valid _ h := absurd h List.not_mem_nil
  holds _ _ := rfl
  solvent _ _ := le_refl 0

/-- The version of a request on the policy. -/
theorem TimeOffRequest.WellFormed.forbids {c : Catalog} {policyId : Uuid} {r : TimeOffRequest}
    {v : PolicyVersion} (h : r.WellFormed c) (hforbids : c.ForbidsNegative policyId)
    (hpolicy : r.policyId = policyId) (hv : c.version r.policyVersionId = some v) :
    v.kind ≠ .UNLIMITED ∧ v.floor = 0 := by
  obtain ⟨w, hw, hwpolicy⟩ := h.version
  obtain rfl : w = v := Option.some.inj (hw.symm.trans hv)
  obtain ⟨hkind, hnegative⟩ := hforbids w (Catalog.version_eq_some.mp hw).1 (hwpolicy.trans hpolicy)
  refine ⟨?_, if_neg ?_⟩
  · rw [hkind]
    nofun
  · rw [hnegative]
    nofun

namespace FloorInvariant

variable {dir : Directory} {policyId : Uuid} {db db' : Db} {op : Op}

/-- Holds on a policy with balances are exact, whatever happens to others. -/
theorem step_holds (h : FloorInvariant policyId db) (heffect : Effect dir db op db')
    (hforbids : db.catalog.ForbidsNegative policyId) (employeeId : String) :
    db'.hold ⟨employeeId, policyId⟩ = db'.outstanding ⟨employeeId, policyId⟩ := by
  have hbefore := h.holds hforbids employeeId
  rcases heffect.hold_sub_outstanding (a := ⟨employeeId, policyId⟩) h.wellFormed with
    heq | ⟨actor, today, r, rfl, hr, hpending, heq⟩
  · omega
  · have hheld : r.held db.catalog ⟨employeeId, policyId⟩
        = if r.account = ⟨employeeId, policyId⟩ then r.totalMinutes else 0 := by
      simp only [TimeOffRequest.held]
      by_cases ha : r.account = ⟨employeeId, policyId⟩
      · obtain ⟨v, hv, -⟩ := (h.wellFormed r hr).version
        have hkind := ((h.wellFormed r hr).forbids hforbids (congrArg Account.policyId ha) hv).1
        rw [if_pos ⟨ha, hpending, (Catalog.keeps_iff hv).mpr hkind⟩, if_pos ha]
      · rw [if_neg fun hc => ha hc.1, if_neg ha]
    omega

/-- A safe step leaves no account of the policy below zero. -/
theorem step_solvent (h : FloorInvariant policyId db) (heffect : Effect dir db op db')
    (hminutes : op.MinutesNonneg) (hsafe : FloorSafe dir policyId db op)
    (hforbids : db.catalog.ForbidsNegative policyId) : Solvent policyId db' := by
  have hsolvent := h.solvent hforbids
  obtain ⟨hpostings, hclosings⟩ := hsafe
  have hpost : ∀ ps, op.postings dir db.catalog = .ok ps → Solvent policyId (db.postAccruals ps) :=
    fun ps hplan => (hpostings.each hplan).invariant hsolvent fun p hp _ hdb hspare =>
      hdb.postAccrual (amount_nonneg_of_postings hplan hp h.valid hminutes) hspare
  cases heffect with
  | catalog => exact hsolvent
  | submit =>
    intro employeeId
    rw [Db.afterSubmit_ledger]
    exact hsolvent employeeId
  | @decide actor id approve note r v hfind hpending hv hfloor =>
    obtain ⟨hr, rfl⟩ := Table.find?_eq_some.mp hfind
    intro employeeId
    rw [Db.balance_afterDecide h.legs h.wellFormed hr hpending]
    by_cases hc : (approve = true ∧ v.kind ≠ .UNLIMITED) ∧ r.account = ⟨employeeId, policyId⟩
    · obtain ⟨hdebits, ha⟩ := hc
      rw [if_pos ⟨hdebits, ha⟩]
      have hkeeps := (Catalog.keeps_iff hv).mpr hdebits.2
      -- the balance covers all holds, and the request is among them
      have hcovered := hfloor hdebits
      rw [((h.wellFormed r hr).forbids hforbids (congrArg Account.policyId ha) hv).2, ha,
        (snapshotsExact_iff.mp h.snapshots _).snapshotOf, Db.snapshotOf_hold,
        h.holds hforbids] at hcovered
      have hheld : r.totalMinutes ≤ db.outstanding ⟨employeeId, policyId⟩ := by
        have hle := Table.le_sum (w := TimeOffRequest.held db.catalog ⟨employeeId, policyId⟩)
          (fun s hs => TimeOffRequest.held_nonneg (h.wellFormed s hs)) hr
        rwa [show r.held db.catalog ⟨employeeId, policyId⟩ = r.totalMinutes from
          if_pos ⟨ha, hpending, hkeeps⟩] at hle
      omega
    · rw [if_neg hc, Int.sub_zero]
      exact hsolvent employeeId
  | @cancel actor id today r hfind hlive _ =>
    obtain ⟨hr, rfl⟩ := Table.find?_eq_some.mp hfind
    intro employeeId
    have hpos := (h.wellFormed r hr).total_pos
    have hbefore := hsolvent employeeId
    rw [Db.balance_afterCancel h.legs h.wellFormed hr hlive]
    split <;> omega
  | runScheduled hplan => exact hpost _ hplan
  | onPayrollProcessed hplan => exact hpost _ hplan
  | rollover => exact hsolvent.closeAccounts h.valid hclosings

/-- A safe step keeps the invariant. -/
theorem step (h : FloorInvariant policyId db) (heffect : Effect dir db op db')
    (hminutes : op.MinutesNonneg) (hsafe : FloorSafe dir policyId db op) :
    FloorInvariant policyId db' where
  wellFormed := heffect.requestsWellFormed h.wellFormed
  legs := h.legs.step heffect.onRequests
  snapshots := heffect.onRequests.snapshotsExact h.snapshots
  valid := heffect.grows.valid h.valid
  holds hforbids := h.step_holds heffect (hforbids.of_grows heffect.grows)
  solvent hforbids := h.step_solvent heffect hminutes hsafe (hforbids.of_grows heffect.grows)

end FloorInvariant

/-- In a run whose jobs leave the minutes that later entries have used, no
account of a policy that forbids negative balances is ever below zero. -/
theorem balance_nonneg {dir : Directory} {policyId : Uuid} {l : List (Db × Op × Db)} {db : Db}
    (h : Run dir .empty l db) (hforbids : db.catalog.ForbidsNegative policyId)
    (hminutes : ∀ x ∈ l, x.2.1.MinutesNonneg)
    (hsafe : ∀ x ∈ l, FloorSafe dir policyId x.1 x.2.1) :
    ∀ x ∈ l, Solvent policyId x.2.2 := by
  intro x hx
  have hinv := h.guarded (fun db op => op.MinutesNonneg ∧ FloorSafe dir policyId db op)
    (FloorInvariant.empty policyId)
    (fun hinv hguard hstep => hinv.step (effect_of_step hstep) hguard.1 hguard.2)
    (fun y hy => ⟨hminutes y hy, hsafe y hy⟩) x hx
  exact hinv.solvent (hforbids.of_grows (h.grows hx))

namespace Demo

/-- Days accrued at the start of every month under a version, one of them taken
in the next year by one of the operations, and the closing in between. -/
def acrossNewYear (version : VersionFields) (ops : List Op) :
    Except Error (List (Db × Op × Db) × Db) :=
  Op.runAll directory
    (openPolicy version
      [{ method := .TIME, amount := 1, unit := .DAY, frequency := some .MONTHLY
         accruesAt := some .START_OF_PERIOD, id := ruleId }] ++
      ops ++ [.rollover "cmp_warp_demo" (ofYmd 2027 1 10)]) .empty

/-- The day taken in the next year. -/
def leaveInJanuary : List Op :=
  [dayOff requestId (ofYmd 2027 1 4), .decide admin requestId true none]

end Demo

/-- The closing of 2026 expires 480 minutes that leave in January 2027 has used. -/
theorem balance_negative :
    ¬ ∀ (dir : Directory) (policyId : Uuid) (l : List (Db × Op × Db)) (db : Db),
      Run dir .empty l db → db.catalog.ForbidsNegative policyId →
      (∀ x ∈ l, x.2.1.MinutesNonneg) → ∀ x ∈ l, Solvent policyId x.2.2 := by
  intro hclaim
  have hrun : (Demo.acrossNewYear
      { effectiveFrom := ofYmd 2026 1 1, kind := .ACCRUAL, expiresAtPeriodEnd := true }
      (.runScheduled "cmp_warp_demo" (ofYmd 2026 1 31) :: Demo.leaveInJanuary)).passes (fun r =>
      r.2.catalog.ForbidsNegative Demo.policyId ∧ (∀ x ∈ r.1, x.2.1.MinutesNonneg) ∧
        r.2.ledger.balance Demo.account none < 0) = true := by
    decide +kernel
  obtain ⟨⟨l, db⟩, hrun, htest⟩ := Except.ok_of_passes hrun
  obtain ⟨hforbids, hminutes, hneg⟩ := of_decide_eq_true htest
  have hl := run_of_runAll hrun
  have hsolvent : Solvent Demo.policyId db :=
    hl.last_of_forall (fun _ => le_refl 0) (hclaim _ _ l db hl hforbids hminutes)
  exact absurd (hsolvent "emp_ada") (not_le.mpr hneg)

/-- Three days accrue under a cap of 900 minutes, which the job enforces around
the approved leave, and the closing expires them all; but it carries over the 480
minutes that the leave has used. -/
theorem balance_nonneg_carried :
    ∃ l db, Run Demo.directory .empty l db ∧
      (∃ e ∈ db.ledger.rows, e.entryType = .FORFEITURE) ∧
      (∃ e ∈ db.ledger.rows, e.entryType = .EXPIRATION ∧ e.amountMinutes = -900) ∧
      db.ledger.balance Demo.account none = 0 ∧
      (∀ x ∈ l, FloorSafe Demo.directory Demo.policyId x.1 x.2.1) ∧
      ∀ x ∈ l, Solvent Demo.policyId x.2.2 := by
  have hrun : (Demo.acrossNewYear
      { effectiveFrom := ofYmd 2026 1 1, kind := .ACCRUAL, maxBalanceMinutes := some 900
        carryoverCapMinutes := some 480 }
      (.runScheduled "cmp_warp_demo" (ofYmd 2026 2 28) :: Demo.leaveInJanuary ++
        [.runScheduled "cmp_warp_demo" (ofYmd 2026 3 31)])).passes (fun r =>
      r.2.catalog.ForbidsNegative Demo.policyId ∧ (∀ x ∈ r.1, x.2.1.MinutesNonneg) ∧
        (∃ e ∈ r.2.ledger.rows, e.entryType = .FORFEITURE) ∧
        (∃ e ∈ r.2.ledger.rows, e.entryType = .EXPIRATION ∧ e.amountMinutes = -900) ∧
        r.2.ledger.balance Demo.account none = 0 ∧
        ∀ x ∈ r.1, FloorSafe Demo.directory Demo.policyId x.1 x.2.1) = true := by
    decide +kernel
  obtain ⟨⟨l, db⟩, hrun, htest⟩ := Except.ok_of_passes hrun
  obtain ⟨hforbids, hminutes, hforfeited, hexpired, htotal, hsafe⟩ := of_decide_eq_true htest
  have hl := run_of_runAll hrun
  exact ⟨l, db, hl, hforfeited, hexpired, htotal, hsafe, balance_nonneg hl hforbids hminutes hsafe⟩

end TimeOff
