import TimeOff.Accrual.Floor

/-!
# Closing the year

A rollover computes what an account has left on the last day of the year from
the ledger as it is, and posts it under a source that names only the policy, the
employee and the year. So an account is closed once: what arrives for a year
that is closed already is computed again by the next rollover, and not posted.
`closes_year_iff` says that this is how a year stays open, besides the policies
without limit that a rollover passes over. What is carried is within the cap in
every case (`carriedInto_le`): one entry, computed under it.

A rollover is a pass over the assignments that cover the last day. What it
leaves of one account is computed from what the pass found there: closings of
other accounts do not touch the balance, and several assignments of one account
close it alike (`closeAccount_congr`). So the condition can be stated of the
state before the rollover (`Closable`), and the pass is an induction with an
invariant for each case: an account with nothing left stays so
(`nonpos_closeAccounts`), one whose source is taken keeps its balance
(`balance_closeAccounts_of_open`).

`rollover_replay` is about the pass run twice: what a closing posts takes the
balance to zero, so that the second pass finds nothing to post, or finds its
source taken (`ClosedFor`).
-/

namespace TimeOff

open Gregorian RolloverService

/-- The most that may be carried into the next year; `none` when a rollover
closes nothing. -/
def VersionFields.carryoverLimit (version : VersionFields) : Option Int :=
  if version.expiresAtPeriodEnd then some 0 else version.carryoverCapMinutes

/-- The minutes carried over to an account on a day. -/
def Ledger.carriedInto (ledger : Ledger) (a : Account) (day : Date) : Int :=
  Table.sum ledger fun e =>
    if e.account = a ∧ e.entryType = .CARRYOVER ∧ e.effectiveDate = day then e.amountMinutes else 0

/-- The accounts that a rollover closes on `periodEnd` have nothing left on it,
and have carried over no more than they may. -/
def YearClosed (companyId : String) (periodEnd : Date) (db : Db) : Prop :=
  ∀ x ∈ db.catalog.assignmentsCovering companyId none periodEnd,
    ∀ v ∈ db.catalog.versionEffectiveOn x.policyId periodEnd, ∀ limit ∈ v.carryoverLimit,
      db.ledger.balance x.account (some periodEnd) ≤ 0 ∧
        db.ledger.carriedInto x.account (periodEnd.addDays 1) ≤ limit

/-- Accounts with something left that a rollover should close have not been
closed for the year, and their policy is not without limit. -/
def Closable (companyId : String) (periodEnd : Date) (db : Db) : Prop :=
  ∀ x ∈ db.catalog.assignmentsCovering companyId none periodEnd,
    ∀ v ∈ db.catalog.versionEffectiveOn x.policyId periodEnd, v.carryoverLimit.isSome →
      0 < db.ledger.balance x.account (some periodEnd) →
        v.kind ≠ .UNLIMITED ∧ ¬ Table.Has db.ledger (closingKey x periodEnd "expiration")

instance (companyId : String) (periodEnd : Date) (db : Db) :
    Decidable (Closable companyId periodEnd db) :=
  inferInstanceAs (Decidable (∀ x ∈ db.catalog.assignmentsCovering companyId none periodEnd,
    ∀ v ∈ db.catalog.versionEffectiveOn x.policyId periodEnd, _ → _ → _ ∧ ¬ _))

/-! ## Sources of closings -/

namespace RolloverService

variable {x y : PolicyAssignment} {d e : Date} {s t : String}

/-- A closing's source tells its account, its day and its leg. -/
theorem closingKey_inj (hs : ':' ∉ s.toList) (ht : ':' ∉ t.toList)
    (h : closingKey x d s = closingKey y e t) : x.account = y.account ∧ d = e ∧ s = t := by
  obtain ⟨hdated, hsuffix⟩ := Text.append_sep_inj' (x := ':') hs ht (Prod.mk.inj h).2
  obtain ⟨howned, hday⟩ := Text.append_sep_inj' (x := ':') (colon_notMem_isoformat d)
    (colon_notMem_isoformat e) hdated
  obtain ⟨hpolicy, hemployee⟩ := Text.append_sep_inj (x := ':') x.policyId.colon_notMem
    y.policyId.colon_notMem howned
  refine ⟨?_, isoformat_inj hday, hsuffix⟩
  show Account.mk x.employeeId x.policyId = Account.mk y.employeeId y.policyId
  rw [hemployee, Uuid.text_injective hpolicy]

/-- Something is to be closed exactly when there is a limit. -/
theorem carriedMinutes_isSome {balance : Int} {v : PolicyVersion} :
    (carriedMinutes balance v.carryoverCapMinutes v.expiresAtPeriodEnd).isSome
      = v.carryoverLimit.isSome := by
  simp only [carriedMinutes, VersionFields.carryoverLimit]
  split <;> simp

/-- No more is carried than the limit. -/
theorem carried_le_limit {balance carried limit : Int} {v : PolicyVersion}
    (h : carriedMinutes balance v.carryoverCapMinutes v.expiresAtPeriodEnd = some carried)
    (hlimit : v.carryoverLimit = some limit) : carried ≤ limit := by
  simp only [carriedMinutes] at h
  simp only [VersionFields.carryoverLimit] at hlimit
  split at h
  · next hexpires =>
    rw [if_pos hexpires] at hlimit
    cases h
    cases hlimit
    exact le_refl 0
  · next hexpires =>
    rw [if_neg hexpires] at hlimit
    rw [hlimit] at h
    cases h
    exact min_le_right _ _

end RolloverService

/-! ## What a closing leaves on the last day

A closing takes the balance that it finds to zero, unless its sources are taken.
The accounts of a rollover are closed in turn, and no closing touches the
account of another one. -/

namespace Db

variable {db : Db} {companyId : String} {periodEnd : Date} {x y : PolicyAssignment}
  {v : PolicyVersion} {a : Account}

/-- The last day's balance after its account is closed: nothing, if the closing
finds something under a version that closes and posts it. -/
theorem balance_closeAccount_self
    (hv : db.catalog.versionEffectiveOn x.policyId periodEnd = some v) :
    (db.closeAccount companyId periodEnd x).ledger.balance x.account (some periodEnd)
      = if v.carryoverLimit.isSome ∧ v.kind ≠ .UNLIMITED ∧
            0 < db.ledger.balance x.account (some periodEnd) ∧
            ¬ Table.Has db.ledger (closingKey x periodEnd "expiration")
        then 0 else db.ledger.balance x.account (some periodEnd) := by
  simp only [closeAccount]
  rw [hv]
  dsimp only
  by_cases hkind : v.kind = .UNLIMITED
  · simp [hkind]
  rw [if_neg hkind]
  by_cases hbalance : 0 < db.ledger.balance x.account (some periodEnd)
  · have hlimit : (carriedMinutes (db.ledger.balance x.account (some periodEnd))
        v.carryoverCapMinutes v.expiresAtPeriodEnd).isSome = v.carryoverLimit.isSome :=
      carriedMinutes_isSome
    cases hcarried : carriedMinutes (db.ledger.balance x.account (some periodEnd))
        v.carryoverCapMinutes v.expiresAtPeriodEnd with
    | none =>
      rw [hcarried] at hlimit
      have hnothing : closingEntries companyId x v periodEnd
          (db.ledger.balance ⟨x.employeeId, x.policyId⟩ (some periodEnd)) = [] :=
        closingEntries_of_none hcarried
      rw [hnothing, posts_nil, ← hlimit]
      simp
    | some carried =>
      rw [hcarried] at hlimit
      -- the expiration falls on the last day, the carryover after it
      have hexpiration : Ledger.part x.account (some periodEnd)
        (closingEntry companyId x v periodEnd
          (expirationEntry (db.ledger.balance x.account (some periodEnd)) periodEnd))
          = -db.ledger.balance x.account (some periodEnd) :=
        (Ledger.part_some (a := x.account) rfl periodEnd).trans (if_pos (le_refl periodEnd))
      have hcarryover : Ledger.part x.account (some periodEnd) (closingEntry companyId x v periodEnd
          (carryoverEntry carried periodEnd)) = 0 := by
        refine (Ledger.part_some (a := x.account) rfl periodEnd).trans (if_neg fun hle => ?_)
        have hlt : periodEnd.ordinal + 1 ≤ periodEnd.ordinal := Date.le_iff.mp hle
        omega
      refine (balance_closing hbalance hcarried).trans ?_
      rw [hexpiration, hcarryover]
      by_cases htaken : Table.Has db.ledger (closingKey x periodEnd "expiration")
      · simp [htaken]
      · simp [htaken, hkind, hbalance, ← hlimit]
  · have hnothing : closingEntries companyId x v periodEnd
        (db.ledger.balance ⟨x.employeeId, x.policyId⟩ (some periodEnd)) = [] :=
      closingEntries_of_nonpos (not_lt.mp hbalance)
    rw [hnothing, posts_nil]
    simp [hbalance]

/-- Assignments of one account close it alike. -/
theorem closeAccount_congr (h : y.account = x.account) :
    db.closeAccount companyId periodEnd y = db.closeAccount companyId periodEnd x := by
  obtain ⟨hemployee, hpolicy⟩ := Account.mk.inj h
  have hentry : closingEntry companyId y = closingEntry companyId x := by
    funext version periodEnd entry
    simp only [closingEntry, hemployee, hpolicy]
  simp only [closeAccount, closingEntries, hentry, hemployee, hpolicy]

/-- A closing takes the sources of its own account and day only. -/
theorem taken_closeAccount {suffix : String} (h : y.account ≠ x.account)
    (hplain : ':' ∉ suffix.toList) :
    Table.Has (db.closeAccount companyId periodEnd y).ledger (closingKey x periodEnd suffix) ↔
      Table.Has db.ledger (closingKey x periodEnd suffix) := by
  obtain ⟨es, heq, hes⟩ := closeAccount_eq_posts companyId periodEnd y db
  rw [heq, has_ledger_posts]
  refine or_iff_left ?_
  rintro ⟨e, he, hkey⟩
  obtain ⟨w, balance, -, hclosing⟩ := hes e he
  obtain ⟨entry, hentry, rfl⟩ := List.mem_map.mp hclosing
  have hsuffix : ':' ∉ entry.sourceSuffix.toList := by
    simp only [plan] at hentry
    split at hentry
    · cases hentry
    split at hentry
    · cases hentry
    · rcases List.mem_cons.mp hentry with rfl | hcarried
      · show ':' ∉ "expiration".toList
        decide
      · split at hcarried
        · rw [List.mem_singleton.mp hcarried]
          show ':' ∉ "carryover".toList
          decide
        · cases hcarried
  exact h (closingKey_inj hsuffix hplain hkey).1

theorem taken_mono (h : Table.Has db.ledger (closingKey x periodEnd "expiration")) :
    Table.Has (db.closeAccount companyId periodEnd y).ledger
      (closingKey x periodEnd "expiration") := by
  obtain ⟨es, heq, -⟩ := closeAccount_eq_posts companyId periodEnd y db
  rw [heq, has_ledger_posts]
  exact Or.inl h

/-- An account with nothing left stays so. -/
theorem nonpos_closeAccounts {xs : List PolicyAssignment}
    (hv : db.catalog.versionEffectiveOn x.policyId periodEnd = some v)
    (h : db.ledger.balance x.account (some periodEnd) ≤ 0) :
    (db.closeAccounts companyId periodEnd xs).ledger.balance x.account (some periodEnd) ≤ 0 := by
  induction xs generalizing db with
  | nil => exact h
  | cons y ys ih =>
    rw [closeAccounts_cons]
    refine ih ((closeAccount_catalog companyId periodEnd y db) ▸ hv) ?_
    by_cases hy : y.account = x.account
    · rw [closeAccount_congr hy, balance_closeAccount_self hv]
      split <;> omega
    · rw [balance_closeAccount_of_ne hy]
      exact h

/-- An account that a rollover passes over, or has closed before, keeps its
balance. -/
theorem balance_closeAccounts_of_open {xs : List PolicyAssignment}
    (hv : db.catalog.versionEffectiveOn x.policyId periodEnd = some v)
    (h : v.kind = .UNLIMITED ∨ Table.Has db.ledger (closingKey x periodEnd "expiration")) :
    (db.closeAccounts companyId periodEnd xs).ledger.balance x.account (some periodEnd)
      = db.ledger.balance x.account (some periodEnd) := by
  induction xs generalizing db with
  | nil => rfl
  | cons y ys ih =>
    rw [closeAccounts_cons, ih ((closeAccount_catalog companyId periodEnd y db) ▸ hv)
      (h.imp_right taken_mono)]
    by_cases hy : y.account = x.account
    · rw [closeAccount_congr hy, balance_closeAccount_self hv]
      rcases h with hkind | htaken
      · simp [hkind]
      · simp [htaken]
    · rw [balance_closeAccount_of_ne hy]

/-- Closing accounts leaves nothing on the last day of one of them exactly when
there was nothing, or it is closed for the first time. -/
theorem closed_iff {xs : List PolicyAssignment} (hx : x ∈ xs)
    (hv : db.catalog.versionEffectiveOn x.policyId periodEnd = some v)
    (hlimit : v.carryoverLimit.isSome = true) :
    (db.closeAccounts companyId periodEnd xs).ledger.balance x.account (some periodEnd) ≤ 0 ↔
      (0 < db.ledger.balance x.account (some periodEnd) →
        v.kind ≠ .UNLIMITED ∧ ¬ Table.Has db.ledger (closingKey x periodEnd "expiration")) := by
  constructor
  · intro hclosed hleft
    by_contra hopen
    have h : v.kind = .UNLIMITED ∨ Table.Has db.ledger (closingKey x periodEnd "expiration") := by
      rcases Classical.em (v.kind = .UNLIMITED) with hkind | hkind
      · exact Or.inl hkind
      · exact Or.inr (by_contra fun htaken => hopen ⟨hkind, htaken⟩)
    rw [balance_closeAccounts_of_open hv h] at hclosed
    omega
  · intro hclosable
    -- up to the first assignment of the account, nothing happens to it
    induction xs generalizing db with
    | nil => cases hx
    | cons y ys ih =>
      rw [closeAccounts_cons]
      have hcat := closeAccount_catalog companyId periodEnd y db
      by_cases hy : y.account = x.account
      · -- the account is closed here, and stays closed
        refine nonpos_closeAccounts (hcat ▸ hv) ?_
        rw [closeAccount_congr hy, balance_closeAccount_self hv]
        by_cases hleft : 0 < db.ledger.balance x.account (some periodEnd)
        · obtain ⟨hkind, hfree⟩ := hclosable hleft
          simp [hlimit, hkind, hleft, hfree]
        · simp only [hleft, false_and, and_false, if_false]
          exact not_lt.mp hleft
      · rcases List.mem_cons.mp hx with rfl | hx
        · exact absurd rfl hy
        · refine ih hx (hcat ▸ hv) fun hleft => ?_
          rw [balance_closeAccount_of_ne hy] at hleft
          obtain ⟨hkind, hfree⟩ := hclosable hleft
          exact ⟨hkind, fun htaken => hfree ((taken_closeAccount hy (by decide)).mp htaken)⟩

end Db

/-! ## What is carried

Every carryover was within the limit of the version in force when it was posted.
Without edits that version is in force on the day for good, so the bound lasts
(`CarriesWithin`). -/

/-- The entry carries minutes into the year after `periodEnd`, within the limit
of the version that was in force on it. -/
structure LedgerEntry.CarriedFrom (c : Catalog) (x : PolicyAssignment) (periodEnd : Date)
    (e : LedgerEntry) : Prop where
  key : e.key = closingKey x periodEnd "carryover"
  account : e.account = x.account
  day : e.effectiveDate = periodEnd.addDays 1
  within : ∀ v ∈ c.versionEffectiveOn x.policyId periodEnd, ∀ limit ∈ v.carryoverLimit,
    e.amountMinutes ≤ limit

/-- Every carryover was within the limit. -/
def CarriesWithin (db : Db) : Prop :=
  ∀ e ∈ db.ledger.rows, e.entryType = .CARRYOVER →
    ∃ x periodEnd, e.CarriedFrom db.catalog x periodEnd

section carryover

variable {dir : Directory} {db db' : Db} {op : Op} {e : LedgerEntry} {x : PolicyAssignment}
  {v : PolicyVersion} {periodEnd : Date} {limit : Int}

/-- A carryover comes from a rollover. -/
theorem Posted.carriedFrom (h : Posted dir db op e) (htype : e.entryType = .CARRYOVER) :
    ∃ x periodEnd, e.CarriedFrom db.catalog x periodEnd := by
  cases h with
  | @accrual done rest p hplan he =>
    rcases p.posts_of_mem he with rfl | ⟨_, _, _, _, rfl⟩ <;> cases htype
  | debit hop hr he =>
    obtain ⟨leg, -, rfl⟩ := List.mem_map.mp he
    cases htype
  | reversal hop hr he =>
    obtain ⟨leg, -, rfl⟩ := List.mem_map.mp he
    cases htype
  | @closing companyId asOf done rest x v hop hx hv hkind he =>
    obtain ⟨entry, hentry, rfl⟩ := List.mem_map.mp he
    simp only [plan] at hentry
    split at hentry
    · cases hentry
    split at hentry
    · cases hentry
    next carried hcarried =>
    rcases List.mem_cons.mp hentry with rfl | hentry
    · cases htype
    split at hentry
    · obtain rfl := List.mem_singleton.mp hentry
      refine ⟨x, closingDay asOf, ⟨rfl, rfl, rfl, fun w hw limit hlimit => ?_⟩⟩
      obtain rfl : v = w := Option.some.inj (hv.symm.trans hw)
      exact carried_le_limit hcarried hlimit
    · cases hentry

/-- Every operation but an edit keeps the carryovers within their limits. -/
theorem CarriesWithin.step (h : CarriesWithin db) (heffect : Effect dir db op db')
    (hop : ¬ op.Edits) : CarriesWithin db' := by
  intro e he htype
  rw [heffect.catalog_eq hop]
  rcases heffect.posted e he with hold | hposted
  · exact h e hold htype
  · exact hposted.carriedFrom htype

/-- What an account carries into a year is within the limit of the version in
force on the day before. -/
theorem CarriesWithin.carriedInto_le (h : CarriesWithin db)
    (hv : db.catalog.versionEffectiveOn x.policyId periodEnd = some v)
    (hlimit : limit ∈ v.carryoverLimit) (hnonneg : 0 ≤ limit) :
    db.ledger.carriedInto x.account (periodEnd.addDays 1) ≤ limit := by
  -- a carryover to the account on that day has the source of its closing
  have hsource : ∀ e ∈ db.ledger.rows, e.account = x.account → e.entryType = .CARRYOVER →
      e.effectiveDate = periodEnd.addDays 1 →
        e.key = closingKey x periodEnd "carryover" ∧ e.amountMinutes ≤ limit := by
    intro e he haccount htype hday
    obtain ⟨y, d, hfrom⟩ := h e he htype
    have hd : d = periodEnd := by
      have hnext : d.ordinal + 1 = periodEnd.ordinal + 1 :=
        congrArg Date.ordinal (hfrom.day.symm.trans hday)
      exact Date.ext_iff'.mpr (by omega)
    subst hd
    obtain ⟨hemployee, hpolicy⟩ := Account.mk.inj (hfrom.account.symm.trans haccount)
    refine ⟨hfrom.key.trans ?_, hfrom.within v (hpolicy ▸ hv) limit hlimit⟩
    show (SourceType.PERIOD_ROLLOVER, closingSource y.policyId y.employeeId _ _) = _
    rw [hemployee, hpolicy]
    rfl
  refine Table.sum_le_of_key (k := closingKey x periodEnd "carryover") hnonneg ?_ ?_
  · intro e he _
    split
    · next hcarried => exact (hsource e he hcarried.1 hcarried.2.1 hcarried.2.2).2
    · exact hnonneg
  · intro e he hne
    refine if_neg fun hcarried => hne ?_
    exact (hsource e he hcarried.1 hcarried.2.1 hcarried.2.2).1

end carryover

theorem carryoverLimit_nonneg {v : PolicyVersion} (hv : v.Valid) {limit : Int}
    (h : limit ∈ v.carryoverLimit) : 0 ≤ limit := by
  simp only [VersionFields.carryoverLimit] at h
  split at h
  · cases h
    exact le_refl 0
  · exact hv.carryover_nonneg limit h

/-- In a run of jobs and requests, a rollover closes the year exactly when the
accounts with something left are closed for the first time, under policies with
balances. -/
theorem closes_year_iff {dir : Directory} {db₀ db : Db} {l : List (Db × Op × Db)}
    (hreach : Reachable dir db₀) (h : Run dir db₀ l db) (hedits : ∀ x ∈ l, ¬ x.2.1.Edits)
    (hfresh : ∀ e ∈ db₀.ledger.rows, e.entryType ≠ .CARRYOVER) :
    ∀ x ∈ l, ∀ companyId asOf, x.2.1 = .rollover companyId asOf →
      (YearClosed companyId (closingDay asOf) x.2.2 ↔
        Closable companyId (closingDay asOf) x.1) := by
  have hrun := h.restrict (P := fun op => ¬ op.Edits) hedits
  -- what is carried rests on the entries, the limits on the versions
  have hinv : ∀ x ∈ l, (∀ v ∈ x.1.catalog.versions.rows, v.Valid) ∧ CarriesWithin x.1 := by
    refine hrun.before (I := fun db => (∀ v ∈ db.catalog.versions.rows, v.Valid) ∧
      CarriesWithin db) ⟨hreach.valid, fun e he htype => absurd htype (hfresh e he)⟩ ?_
    rintro db op db' ⟨hvalid, hcarries⟩ ⟨hstep, hop⟩
    have heffect := effect_of_step hstep
    exact ⟨heffect.grows.valid hvalid, hcarries.step heffect hop⟩
  intro x hx companyId asOf hrollover
  obtain ⟨hvalid, hcarries⟩ := hinv x hx
  obtain ⟨hstep, hop⟩ := hrun.steps x hx
  have heffect := effect_of_step hstep
  have hcarries' := hcarries.step heffect hop
  have hcat := heffect.catalog_eq hop
  obtain ⟨db₁, op, db₂⟩ := x
  dsimp only at hrollover hcat hcarries' hvalid heffect ⊢
  subst hrollover
  cases heffect with
  | rollover =>
  simp only [YearClosed, Closable]
  rw [hcat]
  constructor
  · intro hclosed y hy v hv hlimit
    obtain ⟨limit, hlimit'⟩ := Option.isSome_iff_exists.mp hlimit
    exact (Db.closed_iff hy hv hlimit).mp (hclosed y hy v hv limit hlimit').1
  · intro hclosable y hy v hv limit hlimit
    have hsome : v.carryoverLimit.isSome = true := Option.isSome_iff_exists.mpr ⟨limit, hlimit⟩
    refine ⟨(Db.closed_iff hy hv hsome).mpr (hclosable y hy v hv hsome), ?_⟩
    have hv' := hvalid v (Catalog.versionEffectiveOn_spec hv).1
    exact hcarries'.carriedInto_le (by rwa [hcat]) hlimit (carryoverLimit_nonneg hv' hlimit)

namespace Demo

/-- Ada earns an hour for every hour of work, and loses what is left on New
Year's Eve. -/
def expiringHours : List Op :=
  openPolicy { effectiveFrom := ofYmd 2026 1 1, kind := .ACCRUAL, expiresAtPeriodEnd := true }
    [{ method := .HOURS_WORKED, amount := 1, unit := .HOUR, perMinutesWorked := some 60
       id := ruleId }]

/-- A payroll run of Ada's eight hours on the last days of 2026. -/
def decemberRun (payrollRunId : String) : Op :=
  .onPayrollProcessed "cmp_warp_demo" payrollRunId (ofYmd 2026 12 31) (.singleton ("emp_ada", 480))

/-- The rollover of 2026. -/
def newYear : Op := .rollover "cmp_warp_demo" (ofYmd 2027 1 1)

/-- The end of a year: the policy, some jobs, and the rollover. -/
def endOfYear (jobs : List Op) : Except Error (Db × List (Db × Op × Db) × Db × Db) := do
  let (_, start) ← Op.runAll directory expiringHours .empty
  let (l, last) ← Op.runAll directory jobs start
  let closed ← newYear.run directory last
  return (start, l, last, closed)

theorem endOfYear_ok {jobs : List Op} {start last closed : Db} {l : List (Db × Op × Db)}
    (h : endOfYear jobs = .ok (start, l, last, closed)) :
    Reachable directory start ∧ Run directory start (l ++ [(last, newYear, closed)]) closed := by
  obtain ⟨⟨l₀, db⟩, hstart, h⟩ := Except.bind_eq_ok.mp h
  obtain ⟨⟨l₁, db₁⟩, hl, h⟩ := Except.bind_eq_ok.mp h
  obtain ⟨db₂, hclosed, h⟩ := Except.bind_eq_ok.mp h
  cases h
  exact ⟨⟨l₀, run_of_runAll hstart⟩, (run_of_runAll hl).snoc hclosed⟩

end Demo

/-- The second payroll run of December comes after the rollover, and the next
rollover leaves its eight hours in the old year. -/
theorem year_stays_open :
    ¬ ∀ (dir : Directory) (db₀ db : Db) (l : List (Db × Op × Db)), Reachable dir db₀ →
      Run dir db₀ l db → (∀ x ∈ l, ¬ x.2.1.Edits) → db₀.ledger.rows = [] →
      ∀ x ∈ l, ∀ companyId asOf, x.2.1 = .rollover companyId asOf →
        YearClosed companyId (closingDay asOf) x.2.2 := by
  intro hclaim
  have hrun : (Demo.endOfYear [Demo.decemberRun "run-1", Demo.newYear,
      Demo.decemberRun "run-2"]).passes (fun r =>
        (∀ x ∈ r.2.1 ++ [(r.2.2.1, Demo.newYear, r.2.2.2)], ¬ x.2.1.Edits) ∧
        r.1.ledger.rows = [] ∧
        Demo.assignment ∈ r.2.2.2.catalog.assignmentsCovering "cmp_warp_demo" none
          (closingDay (ofYmd 2027 1 1)) ∧
        (∃ v ∈ r.2.2.2.catalog.versionEffectiveOn Demo.policyId (closingDay (ofYmd 2027 1 1)),
          v.carryoverLimit = some 0) ∧
        0 < r.2.2.2.ledger.balance Demo.account (some (closingDay (ofYmd 2027 1 1)))) = true := by
    decide +kernel
  obtain ⟨⟨start, l, last, closed⟩, hr, htest⟩ := Except.ok_of_passes hrun
  obtain ⟨hedits, hempty, hx, ⟨v, hv, hlimit⟩, hleft⟩ := of_decide_eq_true htest
  obtain ⟨hreach, hl⟩ := Demo.endOfYear_ok hr
  have hyear := hclaim _ _ _ _ hreach hl hedits hempty (last, Demo.newYear, closed)
    (List.mem_append_right _ (List.mem_singleton.mpr rfl)) _ _ rfl
  exact absurd hleft (not_lt.mpr (hyear Demo.assignment hx v hv 0 hlimit).1)

/-- In the order of their dates, the jobs close the year. -/
theorem year_closed_in_order :
    ∃ db₀ l last closed, Reachable Demo.directory db₀ ∧
      Run Demo.directory db₀ (l ++ [(last, Demo.newYear, closed)]) closed ∧
      YearClosed "cmp_warp_demo" (closingDay (ofYmd 2027 1 1)) closed := by
  have hrun : (Demo.endOfYear [Demo.decemberRun "run-1", Demo.decemberRun "run-2"]).passes (fun r =>
      (∀ x ∈ r.2.1 ++ [(r.2.2.1, Demo.newYear, r.2.2.2)], ¬ x.2.1.Edits) ∧
        (∀ e ∈ r.1.ledger.rows, e.entryType ≠ .CARRYOVER) ∧
        Closable "cmp_warp_demo" (closingDay (ofYmd 2027 1 1)) r.2.2.1) = true := by
    decide +kernel
  obtain ⟨⟨start, l, last, closed⟩, hr, htest⟩ := Except.ok_of_passes hrun
  obtain ⟨hedits, hfresh, hclosable⟩ := of_decide_eq_true htest
  obtain ⟨hreach, hl⟩ := Demo.endOfYear_ok hr
  refine ⟨start, l, last, closed, hreach, hl, ?_⟩
  exact (closes_year_iff hreach hl hedits hfresh (last, Demo.newYear, closed)
    (List.mem_append_right _ (List.mem_singleton.mpr rfl)) _ _ rfl).mpr hclosable

/-! ## Closing again

What a closing posts takes the balance to zero, so the next one finds nothing to
close, or the sources taken. -/

/-- What closing the account now would post has been posted. -/
def Db.ClosedFor (companyId : String) (periodEnd : Date) (x : PolicyAssignment) (db : Db) : Prop :=
  ∀ v ∈ db.catalog.versionEffectiveOn x.policyId periodEnd, v.kind ≠ .UNLIMITED →
    ∀ e ∈ closingEntries companyId x v periodEnd (db.ledger.balance x.account (some periodEnd)),
      Table.Has db.ledger e.key

namespace Db

variable {db : Db} {companyId : String} {periodEnd : Date} {x y : PolicyAssignment}

/-- A closed account is closed again by doing nothing. -/
theorem ClosedFor.closeAccount_eq (h : db.ClosedFor companyId periodEnd x) :
    db.closeAccount companyId periodEnd x = db := by
  simp only [closeAccount]
  cases hv : db.catalog.versionEffectiveOn x.policyId periodEnd with
  | none => rfl
  | some v =>
    by_cases hkind : v.kind = .UNLIMITED
    · exact if_pos hkind
    · dsimp only
      rw [if_neg hkind]
      exact posts_of_has (h v hv hkind)

/-- A closing closes: what it posts takes the balance to zero, and what it does
not post was posted before. -/
theorem closedFor_closeAccount (db : Db) (x : PolicyAssignment) :
    (db.closeAccount companyId periodEnd x).ClosedFor companyId periodEnd x := by
  intro v hv hkind e he
  rw [closeAccount_catalog] at hv
  rw [balance_closeAccount_self hv] at he
  split at he
  · -- the balance is zero now, and calls for nothing
    rw [closingEntries_of_nonpos (le_refl 0)] at he
    cases he
  · simp only [closeAccount]
    rw [hv]
    dsimp only
    rw [if_neg hkind]
    exact has_ledger_posts.mpr (Or.inr ⟨e, he, rfl⟩)

/-- And other closings do not open it again. -/
theorem ClosedFor.closeAccount (h : db.ClosedFor companyId periodEnd x) (y : PolicyAssignment) :
    (db.closeAccount companyId periodEnd y).ClosedFor companyId periodEnd x := by
  by_cases hy : y.account = x.account
  · rw [closeAccount_congr hy, h.closeAccount_eq]
    exact h
  · intro v hv hkind e he
    rw [closeAccount_catalog] at hv
    rw [balance_closeAccount_of_ne hy] at he
    obtain ⟨es, heq, -⟩ := closeAccount_eq_posts companyId periodEnd y db
    rw [heq]
    exact has_ledger_posts.mpr (Or.inl (h v hv hkind e he))

/-- Closing accounts twice is closing them once. -/
theorem closeAccounts_closeAccounts (companyId : String) (periodEnd : Date)
    (xs : List PolicyAssignment) (db : Db) :
    (db.closeAccounts companyId periodEnd xs).closeAccounts companyId periodEnd xs
      = db.closeAccounts companyId periodEnd xs := by
  let Closed (x : PolicyAssignment) (db : Db) : Prop := db.ClosedFor companyId periodEnd x
  have hcloses (db : Db) (x : PolicyAssignment) :
      Closed x (db.closeAccount companyId periodEnd x) :=
    closedFor_closeAccount db x
  have hkeeps (db : Db) (x y : PolicyAssignment) (h : Closed x db) :
      Closed x (db.closeAccount companyId periodEnd y) :=
    h.closeAccount y
  exact List.foldl_foldl_of_settled hcloses hkeeps (fun _ _ h => ClosedFor.closeAccount_eq h) xs db

end Db

/-- A rollover that follows directly on the same rollover posts nothing, whatever
the ledger was before. -/
theorem rollover_replay (companyId : String) (asOf : Date) (db : Db) :
    ∃ first db₁ second db₂,
      Tx.run (RolloverService.run companyId asOf) db = .ok (first, db₁) ∧
      Tx.run (RolloverService.run companyId asOf) db₁ = .ok (second, db₂) ∧
      db₂.ledger = db₁.ledger ∧ second.entriesCreated = 0 := by
  refine ⟨_, _, _, _, run_run companyId asOf db, run_run companyId asOf _, ?_, ?_⟩
  · rw [Db.recordRun_ledger, Db.recordRun_catalog, Db.closeAccounts_catalog,
      Db.closeAccounts_recordRun, Db.closeAccounts_closeAccounts]
  · rw [Db.recordRun_catalog, Db.closeAccounts_catalog, Db.closeAccounts_recordRun,
      Db.closeAccounts_closeAccounts, Db.entriesAdded_self]
    rfl

end TimeOff
