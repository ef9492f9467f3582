import TimeOff.Accrual.Closing

/-!
# Carryover and expiry

A closing expires what is left of a year and carries a part of it over, each leg
under a source of its own. When a year is closed again, the plan is made from
the balance and the version of the day, but a leg whose source is taken is not
posted: a closing that only expired may carry over later, by minutes that never
expire. **`carryover_backed_iff`** says that this is how more is carried over
than expired.

A closing that posts both legs carries no more than it takes, and one that posts
neither or only the expiration leaves what was carried alone. What is left is a
closing that finds its expiration posted and its carryover not: it has to have
taken as much already as it would now carry (`ClosesBacked`). The condition is
about the state that the closing finds, and the two legs of an account and a
year are all that it reads of the ledger (`SameLegs`); so a step of any other
kind keeps it (`Effect.sameLegs`), and a rollover is a pass over accounts of
which each is closed as the rollover found it (`backed_closeAccounts_iff`).
-/

namespace TimeOff

open Gregorian RolloverService

/-- What an entry takes from an account on a day by a closing. -/
def LedgerEntry.expires (a : Account) (day : Date) (e : LedgerEntry) : Int :=
  if e.account = a ∧ e.entryType = .EXPIRATION ∧ e.effectiveDate = day then -e.amountMinutes else 0

/-- The minutes that closings took from an account on a day. -/
def Ledger.expiredOn (ledger : Ledger) (a : Account) (day : Date) : Int :=
  Table.sum ledger (LedgerEntry.expires a day)

/-- What an entry carries over to an account on a day. -/
def LedgerEntry.carries (a : Account) (day : Date) (e : LedgerEntry) : Int :=
  if e.account = a ∧ e.entryType = .CARRYOVER ∧ e.effectiveDate = day then e.amountMinutes else 0

theorem Ledger.carriedInto_eq {ledger : Ledger} {a : Account} {day : Date} :
    ledger.carriedInto a day = Table.sum ledger (LedgerEntry.carries a day) := rfl

/-- The closing of an account carried over no more than it expired. -/
def Backed (a : Account) (periodEnd : Date) (db : Db) : Prop :=
  db.ledger.carriedInto a (periodEnd.addDays 1) ≤ db.ledger.expiredOn a periodEnd

/-- No closing carried over more than it expired. -/
def CarryoverBacked (db : Db) : Prop := ∀ a periodEnd, Backed a periodEnd db

/-- Where the expiration of a closing is posted and the carryover is not, it took
as much as the account has now, or as the version in force carries over. -/
def Db.ClosesBacked (periodEnd : Date) (x : PolicyAssignment) (db : Db) : Prop :=
  ∀ v ∈ db.catalog.versionEffectiveOn x.policyId periodEnd, v.kind ≠ .UNLIMITED →
    0 < db.ledger.balance x.account (some periodEnd) →
      Table.Has db.ledger (closingKey x periodEnd "expiration") →
        ¬ Table.Has db.ledger (closingKey x periodEnd "carryover") →
          ∀ limit ∈ v.carryoverLimit,
            db.ledger.balance x.account (some periodEnd) ≤ db.ledger.expiredOn x.account periodEnd ∨
              limit ≤ db.ledger.expiredOn x.account periodEnd

instance (periodEnd : Date) (x : PolicyAssignment) (db : Db) :
    Decidable (db.ClosesBacked periodEnd x) :=
  inferInstanceAs (Decidable
    (∀ v ∈ db.catalog.versionEffectiveOn x.policyId periodEnd, _ → _ → _ → ¬ _ →
      ∀ limit ∈ v.carryoverLimit, _))

/-- A rollover closes every account so. -/
def Op.ClosesBacked (db : Db) : Op → Prop
  | .rollover companyId asOf =>
    ∀ x ∈ db.catalog.assignmentsCovering companyId none (closingDay asOf),
      db.ClosesBacked (closingDay asOf) x
  | _ => True

instance (db : Db) (op : Op) : Decidable (op.ClosesBacked db) := by
  unfold Op.ClosesBacked
  split <;> infer_instance

/-! ## The legs of a closing

Two sums decide whether a closing is backed: what the account has carried into
the next year, and what has expired on the last day. Only a closing of that
account and day changes them, and only if the sources are free. -/

/-- The legs of an account and a day are the same in both states. -/
structure SameLegs (a : Account) (periodEnd : Date) (db db' : Db) : Prop where
  carriedInto : db'.ledger.carriedInto a (periodEnd.addDays 1)
    = db.ledger.carriedInto a (periodEnd.addDays 1)
  expiredOn : db'.ledger.expiredOn a periodEnd = db.ledger.expiredOn a periodEnd

/-- Whether a closing is backed depends on its legs. -/
theorem SameLegs.backed_iff {a : Account} {periodEnd : Date} {db db' : Db}
    (h : SameLegs a periodEnd db db') : Backed a periodEnd db' ↔ Backed a periodEnd db := by
  simp only [Backed]
  rw [h.carriedInto, h.expiredOn]

/-- Entries of other accounts, days and types leave the legs alone. -/
theorem SameLegs.of_posts {a : Account} {periodEnd : Date} {db db' : Db} {es : List LedgerEntry}
    (hledger : db'.ledger = (db.posts es).ledger)
    (hes : ∀ e ∈ es, e.account = a →
      ¬ (e.entryType = .CARRYOVER ∧ e.effectiveDate = periodEnd.addDays 1) ∧
        ¬ (e.entryType = .EXPIRATION ∧ e.effectiveDate = periodEnd)) :
    SameLegs a periodEnd db db' := by
  constructor
  · rw [hledger]
    exact Db.sum_posts_eq fun e he => if_neg fun h => (hes e he h.1).1 h.2
  · rw [hledger]
    exact Db.sum_posts_eq fun e he => if_neg fun h => (hes e he h.1).2 h.2

/-- Without their sources, a closing has neither carried nor expired anything. -/
structure LegsKeyed (x : PolicyAssignment) (periodEnd : Date) (db : Db) : Prop where
  carryover : ¬ Table.Has db.ledger (closingKey x periodEnd "carryover") →
    db.ledger.carriedInto x.account (periodEnd.addDays 1) = 0
  expiration : ¬ Table.Has db.ledger (closingKey x periodEnd "expiration") →
    db.ledger.expiredOn x.account periodEnd = 0

theorem dates_of_mem_plan {balance : Int} {periodEnd : Date} {cap : Option Int} {expires : Bool}
    {entry : RolloverEntry} (h : entry ∈ plan balance periodEnd cap expires) :
    (entry.entryType = .CARRYOVER → entry.effectiveDate = periodEnd.addDays 1 ∧
      entry.sourceSuffix = "carryover") ∧
    (entry.entryType = .EXPIRATION → entry.effectiveDate = periodEnd ∧
      entry.sourceSuffix = "expiration") := by
  simp only [plan] at h
  split at h
  · cases h
  split at h
  · cases h
  rcases List.mem_cons.mp h with rfl | h
  · exact ⟨fun hc => EntryType.noConfusion hc, fun _ => ⟨rfl, rfl⟩⟩
  split at h
  · rw [List.mem_singleton.mp h]
    exact ⟨fun _ => ⟨rfl, rfl⟩, fun hc => EntryType.noConfusion hc⟩
  · cases h

/-- What is carried over of a positive balance. -/
theorem carriedMinutes_eq {balance : Int} {v : PolicyVersion} (hbalance : 0 < balance) :
    carriedMinutes balance v.carryoverCapMinutes v.expiresAtPeriodEnd
      = v.carryoverLimit.map (min balance) := by
  simp only [carriedMinutes, VersionFields.carryoverLimit]
  split
  · rw [Option.map_some, min_eq_right (le_of_lt hbalance)]
  · rfl

namespace Db

variable {db : Db} {companyId : String} {periodEnd day : Date} {x y : PolicyAssignment}
  {v : PolicyVersion} {a : Account} {balance carried : Int}

/-- A carryover counts as carried into the next year. -/
theorem carriedInto_closing (hbalance : 0 < balance)
    (h : carriedMinutes balance v.carryoverCapMinutes v.expiresAtPeriodEnd = some carried) :
    (db.posts (closingEntries companyId x v periodEnd balance)).ledger.carriedInto x.account
        (periodEnd.addDays 1)
      = db.ledger.carriedInto x.account (periodEnd.addDays 1)
        + if Table.Has db.ledger (closingKey x periodEnd "carryover") then 0 else carried := by
  have hexpiration : (closingEntry companyId x v periodEnd (expirationEntry balance
      periodEnd)).carries x.account (periodEnd.addDays 1) = 0 :=
    if_neg fun hc => EntryType.noConfusion hc.2.1
  have hcarryover : (closingEntry companyId x v periodEnd (carryoverEntry carried
      periodEnd)).carries x.account (periodEnd.addDays 1) = carried := if_pos ⟨rfl, rfl, rfl⟩
  rw [Ledger.carriedInto_eq, sum_closing hbalance h hcarryover.trans, hexpiration, hcarryover,
    ite_self, Int.add_zero]
  rfl

/-- And an expiration as expired on the last day of the old one. -/
theorem expiredOn_closing (hbalance : 0 < balance)
    (h : carriedMinutes balance v.carryoverCapMinutes v.expiresAtPeriodEnd = some carried) :
    (db.posts (closingEntries companyId x v periodEnd balance)).ledger.expiredOn x.account
        periodEnd
      = db.ledger.expiredOn x.account periodEnd
        + if Table.Has db.ledger (closingKey x periodEnd "expiration") then 0 else balance := by
  have hexpiration : (closingEntry companyId x v periodEnd (expirationEntry balance
      periodEnd)).expires x.account periodEnd = balance :=
    (if_pos ⟨rfl, rfl, rfl⟩).trans (Int.neg_neg balance)
  have hcarryover : (closingEntry companyId x v periodEnd (carryoverEntry carried
      periodEnd)).expires x.account periodEnd = 0 := if_neg fun hc => EntryType.noConfusion hc.2.1
  simp only [Ledger.expiredOn]
  rw [sum_closing hbalance h fun _ => hcarryover, hexpiration, hcarryover, ite_self, Int.add_zero]

/-- The legs a closing posts are of its account and day. -/
theorem sameLegs_closeAccount (h : y.account ≠ a ∨ day ≠ periodEnd) :
    SameLegs a day db (db.closeAccount companyId periodEnd y) := by
  obtain ⟨es, heq, hes⟩ := closeAccount_eq_posts companyId periodEnd y db
  refine .of_posts (congrArg Db.ledger heq) fun e he haccount => ?_
  obtain ⟨w, balance, -, hclosing⟩ := hes e he
  obtain ⟨entry, hentry, rfl⟩ := List.mem_map.mp hclosing
  have hday : day ≠ periodEnd := h.resolve_left fun hne => hne haccount
  obtain ⟨hcarryover, hexpiration⟩ := dates_of_mem_plan hentry
  constructor
  · rintro ⟨htype, hnext⟩
    have hsucc := congrArg Date.ordinal ((hcarryover htype).1.symm.trans hnext)
    exact hday (Date.ext_iff'.mpr (by simpa using hsucc.symm))
  · rintro ⟨htype, hlast⟩
    exact hday (hlast.symm.trans (hexpiration htype).1)

/-- Closing an account keeps it backed exactly when it closes backed. -/
theorem backed_closeAccount_iff (hkeyed : LegsKeyed x periodEnd db)
    (hbacked : Backed x.account periodEnd db) :
    Backed x.account periodEnd (db.closeAccount companyId periodEnd x) ↔
      db.ClosesBacked periodEnd x := by
  simp only [closeAccount, ClosesBacked]
  cases hv : db.catalog.versionEffectiveOn x.policyId periodEnd with
  | none =>
    refine ⟨fun _ v h => ?_, fun _ => hbacked⟩
    cases h
  | some v =>
  simp only [Option.mem_def, Option.some.injEq, forall_eq']
  by_cases hkind : v.kind = .UNLIMITED
  · rw [if_pos hkind]
    exact ⟨fun _ h => absurd hkind h, fun _ => hbacked⟩
  rw [if_neg hkind]
  by_cases hbalance : 0 < db.ledger.balance x.account (some periodEnd)
  · have hcarried := carriedMinutes_eq (v := v) hbalance
    cases hlimit : v.carryoverLimit with
    | none =>
      rw [hlimit] at hcarried
      have hnothing : closingEntries companyId x v periodEnd
          (db.ledger.balance ⟨x.employeeId, x.policyId⟩ (some periodEnd)) = [] :=
        closingEntries_of_none hcarried
      rw [hnothing, posts_nil]
      refine ⟨fun _ _ _ _ _ limit h => ?_, fun _ => hbacked⟩
      cases h
    | some limit =>
      rw [hlimit] at hcarried
      have hle : min (db.ledger.balance x.account (some periodEnd)) limit
          ≤ db.ledger.balance x.account (some periodEnd) := min_le_left _ _
      -- the legs that this closing adds, each unless its source is taken
      have hiff : Backed x.account periodEnd (db.posts (closingEntries companyId x v periodEnd
          (db.ledger.balance x.account (some periodEnd)))) ↔
          db.ledger.carriedInto x.account (periodEnd.addDays 1)
            + (if Table.Has db.ledger (closingKey x periodEnd "carryover") then 0
              else min (db.ledger.balance x.account (some periodEnd)) limit)
            ≤ db.ledger.expiredOn x.account periodEnd
              + (if Table.Has db.ledger (closingKey x periodEnd "expiration") then 0
                else db.ledger.balance x.account (some periodEnd)) := by
        simp only [Backed]
        rw [carriedInto_closing hbalance hcarried, expiredOn_closing hbalance hcarried]
      refine hiff.trans ?_
      simp only [Backed] at hbacked
      simp only [hkind, hbalance, ne_eq, not_false_eq_true, true_implies, Option.some.injEq,
        forall_eq', ← min_le_iff]
      by_cases hc : Table.Has db.ledger (closingKey x periodEnd "carryover")
      · -- nothing is carried over any more
        rw [if_pos hc]
        refine ⟨fun _ _ h => absurd hc h, fun _ => ?_⟩
        split <;> omega
      · rw [if_neg hc, hkeyed.carryover hc, Int.zero_add]
        by_cases he : Table.Has db.ledger (closingKey x periodEnd "expiration")
        · -- expired before, and carried over now: this is the case that the condition is
          -- about
          rw [if_pos he, Int.add_zero]
          exact ⟨fun h _ _ => h, fun h => h he hc⟩
        · -- both legs are new, and no more is carried than expires
          rw [if_neg he, hkeyed.expiration he, Int.zero_add]
          exact ⟨fun _ h => absurd h he, fun _ => hle⟩
  · have hnothing : closingEntries companyId x v periodEnd
        (db.ledger.balance ⟨x.employeeId, x.policyId⟩ (some periodEnd)) = [] :=
      closingEntries_of_nonpos (not_lt.mp hbalance)
    rw [hnothing, posts_nil]
    exact ⟨fun _ _ h => absurd h hbalance, fun _ => hbacked⟩

/-- Closing another account changes nothing for this one. -/
theorem closesBacked_closeAccount (h : y.account ≠ x.account) :
    (db.closeAccount companyId periodEnd y).ClosesBacked periodEnd x ↔
      db.ClosesBacked periodEnd x := by
  have hlegs : SameLegs x.account periodEnd db (db.closeAccount companyId periodEnd y) :=
    sameLegs_closeAccount (Or.inl h)
  simp only [ClosesBacked]
  rw [closeAccount_catalog, balance_closeAccount_of_ne h, hlegs.expiredOn,
    taken_closeAccount h (by decide), taken_closeAccount h (by decide)]

theorem legsKeyed_closeAccount (hkeyed : LegsKeyed x periodEnd db) (h : y.account ≠ x.account) :
    LegsKeyed x periodEnd (db.closeAccount companyId periodEnd y) := by
  have hlegs : SameLegs x.account periodEnd db (db.closeAccount companyId periodEnd y) :=
    sameLegs_closeAccount (Or.inl h)
  constructor
  · rw [taken_closeAccount h (by decide), hlegs.carriedInto]
    exact hkeyed.carryover
  · rw [taken_closeAccount h (by decide), hlegs.expiredOn]
    exact hkeyed.expiration

/-- Once closed, an account keeps its legs. -/
theorem ClosedFor.sameLegs (h : db.ClosedFor companyId periodEnd x) (xs : List PolicyAssignment) :
    SameLegs x.account periodEnd db (db.closeAccounts companyId periodEnd xs) := by
  induction xs generalizing db with
  | nil => exact ⟨rfl, rfl⟩
  | cons y ys ih =>
    have hrest := ih (h.closeAccount y)
    have hfirst : SameLegs x.account periodEnd db (db.closeAccount companyId periodEnd y) := by
      by_cases hy : y.account = x.account
      · rw [closeAccount_congr hy, h.closeAccount_eq]
        exact ⟨rfl, rfl⟩
      · exact sameLegs_closeAccount (Or.inl hy)
    exact ⟨hrest.carriedInto.trans hfirst.carriedInto, hrest.expiredOn.trans hfirst.expiredOn⟩

/-- A rollover closes each account once, as it finds it. -/
theorem backed_closeAccounts_iff {xs : List PolicyAssignment} (hx : x ∈ xs)
    (hkeyed : LegsKeyed x periodEnd db) (hbacked : Backed x.account periodEnd db) :
    Backed x.account periodEnd (db.closeAccounts companyId periodEnd xs) ↔
      db.ClosesBacked periodEnd x := by
  induction xs generalizing db with
  | nil => cases hx
  | cons y ys ih =>
    rw [closeAccounts_cons]
    by_cases hy : y.account = x.account
    · rw [closeAccount_congr hy, ((closedFor_closeAccount db x).sameLegs ys).backed_iff]
      exact backed_closeAccount_iff hkeyed hbacked
    · have hmem : x ∈ ys := (List.mem_cons.mp hx).resolve_left fun h => hy (h ▸ rfl)
      have hlegs : SameLegs x.account periodEnd db (db.closeAccount companyId periodEnd y) :=
        sameLegs_closeAccount (Or.inl hy)
      rw [ih hmem (legsKeyed_closeAccount hkeyed hy) (hlegs.backed_iff.mpr hbacked)]
      exact closesBacked_closeAccount hy

/-- And leaves the legs of other accounts and days alone. -/
theorem sameLegs_closeAccounts {xs : List PolicyAssignment}
    (h : (∀ x ∈ xs, x.account ≠ a) ∨ day ≠ periodEnd) :
    SameLegs a day db (db.closeAccounts companyId periodEnd xs) := by
  induction xs generalizing db with
  | nil => exact ⟨rfl, rfl⟩
  | cons y ys ih =>
    have hrest : SameLegs a day (db.closeAccount companyId periodEnd y)
        ((db.closeAccount companyId periodEnd y).closeAccounts companyId periodEnd ys) :=
      ih (h.imp_left fun hne x hx => hne x (List.mem_cons_of_mem _ hx))
    have hfirst : SameLegs a day db (db.closeAccount companyId periodEnd y) :=
      sameLegs_closeAccount (h.imp_left fun hne => hne y (List.mem_cons_self ..))
    exact ⟨hrest.carriedInto.trans hfirst.carriedInto, hrest.expiredOn.trans hfirst.expiredOn⟩

end Db

/-! ## Along a run

Since only closings post legs, each under its own source (`ClosingsKeyed`), a
closing whose sources are free finds both sums at zero. So a step keeps
carryovers backed exactly when its own closings are. -/

/-- Carryovers and expirations have the sources of their closings. -/
structure ClosingsKeyed (db : Db) : Prop where
  carryover : ∀ e ∈ db.ledger.rows, e.entryType = .CARRYOVER → ∃ x day,
    e.key = closingKey x day "carryover" ∧ e.account = x.account ∧ e.effectiveDate = day.addDays 1
  expiration : ∀ e ∈ db.ledger.rows, e.entryType = .EXPIRATION → ∃ x day,
    e.key = closingKey x day "expiration" ∧ e.account = x.account ∧ e.effectiveDate = day

theorem closingKey_congr {x y : PolicyAssignment} (h : x.account = y.account) (day : Date)
    (suffix : String) : closingKey x day suffix = closingKey y day suffix := by
  obtain ⟨hemployee, hpolicy⟩ := Account.mk.inj h
  show (SourceType.PERIOD_ROLLOVER, closingSource x.policyId x.employeeId _ _) = _
  rw [hemployee, hpolicy]
  rfl

/-- So a closing without its sources has left nothing. -/
theorem ClosingsKeyed.legs {db : Db} (h : ClosingsKeyed db) (x : PolicyAssignment)
    (periodEnd : Date) : LegsKeyed x periodEnd db := by
  constructor
  · intro hfree
    refine Table.sum_eq_zero fun e he => if_neg fun hcarries => hfree ?_
    obtain ⟨haccount, htype, hday⟩ := hcarries
    obtain ⟨y, day, hkey, hy, hnext⟩ := h.carryover e he htype
    have hsame : day = periodEnd := by
      have hsucc : day.ordinal + 1 = periodEnd.ordinal + 1 :=
        congrArg Date.ordinal (hnext.symm.trans hday)
      exact Date.ext_iff'.mpr (by omega)
    rw [← closingKey_congr (hy.symm.trans haccount), ← hsame, ← hkey]
    exact Table.has_of_mem he
  · intro hfree
    refine Table.sum_eq_zero fun e he => if_neg fun hexpires => hfree ?_
    obtain ⟨haccount, htype, hday⟩ := hexpires
    obtain ⟨y, day, hkey, hy, hlast⟩ := h.expiration e he htype
    rw [← closingKey_congr (hy.symm.trans haccount), ← hday, hlast, ← hkey]
    exact Table.has_of_mem he

/-- The entry types of what a closing posts. -/
def EntryType.IsClosing (t : EntryType) : Prop := t = .CARRYOVER ∨ t = .EXPIRATION

instance (t : EntryType) : Decidable t.IsClosing := inferInstanceAs (Decidable (_ ∨ _))

/-- Accruals post neither carryovers nor expirations. -/
theorem Posting.Posts.not_closing {p : Posting} {e : LedgerEntry} (h : p.Posts e) :
    ¬ e.entryType.IsClosing := by
  rcases h with rfl | ⟨_, _, _, _, rfl⟩
  · show ¬ EntryType.ACCRUAL.IsClosing
    decide
  · show ¬ EntryType.FORFEITURE.IsClosing
    decide

theorem TimeOffRequest.not_closing_of_mem_debits {r : TimeOffRequest} {e : LedgerEntry}
    (h : e ∈ r.debits) : ¬ e.entryType.IsClosing := by
  obtain ⟨leg, -, rfl⟩ := List.mem_map.mp h
  show ¬ EntryType.REQUEST_DEBIT.IsClosing
  decide

theorem TimeOffRequest.not_closing_of_mem_reversals {r : TimeOffRequest} {e : LedgerEntry}
    (h : e ∈ r.reversals) : ¬ e.entryType.IsClosing := by
  obtain ⟨leg, -, rfl⟩ := List.mem_map.mp h
  show ¬ EntryType.REQUEST_REVERSAL.IsClosing
  decide

section steps

variable {dir : Directory} {db db' : Db} {op : Op} {e : LedgerEntry}

/-- Only closings post carryovers and expirations. -/
theorem Posted.closed (h : Posted dir db op e) :
    (e.entryType = .CARRYOVER → ∃ x day, e.key = closingKey x day "carryover" ∧
      e.account = x.account ∧ e.effectiveDate = day.addDays 1) ∧
    (e.entryType = .EXPIRATION → ∃ x day, e.key = closingKey x day "expiration" ∧
      e.account = x.account ∧ e.effectiveDate = day) := by
  cases h with
  | @accrual done rest p hplan he =>
    have hne := (p.posts_of_mem he).not_closing
    exact ⟨fun hc => absurd (Or.inl hc) hne, fun hc => absurd (Or.inr hc) hne⟩
  | debit hop hr he =>
    have hne := TimeOffRequest.not_closing_of_mem_debits he
    exact ⟨fun hc => absurd (Or.inl hc) hne, fun hc => absurd (Or.inr hc) hne⟩
  | reversal hop hr he =>
    have hne := TimeOffRequest.not_closing_of_mem_reversals he
    exact ⟨fun hc => absurd (Or.inl hc) hne, fun hc => absurd (Or.inr hc) hne⟩
  | @closing companyId asOf done rest x v hop hx hv hkind he =>
    obtain ⟨entry, hentry, rfl⟩ := List.mem_map.mp he
    obtain ⟨hcarryover, hexpiration⟩ := dates_of_mem_plan hentry
    constructor
    · intro htype
      obtain ⟨hday, hsuffix⟩ := hcarryover htype
      exact ⟨x, closingDay asOf, congrArg (closingKey x (closingDay asOf)) hsuffix, rfl, hday⟩
    · intro htype
      obtain ⟨hday, hsuffix⟩ := hexpiration htype
      exact ⟨x, closingDay asOf, congrArg (closingKey x (closingDay asOf)) hsuffix, rfl, hday⟩

/-- Every step keeps the sources of closings. -/
theorem ClosingsKeyed.step (h : ClosingsKeyed db) (heffect : Effect dir db op db') :
    ClosingsKeyed db' := by
  constructor
  · intro e he htype
    rcases heffect.posted e he with hold | hposted
    · exact h.carryover e hold htype
    · exact hposted.closed.1 htype
  · intro e he htype
    rcases heffect.posted e he with hold | hposted
    · exact h.expiration e hold htype
    · exact hposted.closed.2 htype

/-- Everything else leaves the legs of closings alone. -/
theorem Effect.sameLegs (h : Effect dir db op db')
    (hop : ∀ companyId asOf, op ≠ .rollover companyId asOf) (a : Account) (periodEnd : Date) :
    SameLegs a periodEnd db db' := by
  have hsame (hledger : db'.ledger = db.ledger) : SameLegs a periodEnd db db' := by
    constructor <;> rw [hledger]
  -- other entries are of other types
  have hother {es : List LedgerEntry} (hledger : db'.ledger = (db.posts es).ledger)
      (hes : ∀ e ∈ es, ¬ e.entryType.IsClosing) : SameLegs a periodEnd db db' :=
    .of_posts hledger fun e he _ =>
      ⟨fun hc => hes e he (Or.inl hc.1), fun hc => hes e he (Or.inr hc.1)⟩
  have haccruals {ps : List Posting} (hledger : db'.ledger = (db.postAccruals ps).ledger) :
      SameLegs a periodEnd db db' := by
    obtain ⟨es, heq, hes⟩ := Db.postAccruals_eq_posts ps db
    refine hother (hledger.trans (congrArg Db.ledger heq)) fun e he => ?_
    obtain ⟨p, -, hposts⟩ := hes e he
    exact hposts.not_closing
  cases h with
  | catalog => exact ⟨rfl, rfl⟩
  | submit => exact hsame Db.afterSubmit_ledger
  | @decide actor id approve note r v =>
    have hledger : (db.afterDecide r approve v.kind (RequestService.decision approve actor.id
        note)).ledger = (db.afterDebits r approve v.kind).ledger := Db.afterDecide_ledger
    simp only [Db.afterDebits] at hledger
    split at hledger
    · exact hother hledger fun e he => TimeOffRequest.not_closing_of_mem_debits he
    · exact hsame hledger
  | @cancel actor id today r =>
    have hledger : (db.afterCancel r (RequestService.cancellation r.status actor.id)).ledger
        = if r.status = .PENDING then db.ledger else (db.posts r.reversals).ledger :=
      Db.afterCancel_ledger
    split at hledger
    · exact hsame hledger
    · exact hother hledger fun e he => TimeOffRequest.not_closing_of_mem_reversals he
  | runScheduled => exact haccruals rfl
  | onPayrollProcessed => exact haccruals rfl
  | rollover => exact absurd rfl (hop _ _)

/-- A step keeps every carryover backed exactly when it closes accounts so. -/
theorem carryoverBacked_step_iff (hkeyed : ClosingsKeyed db) (hbacked : CarryoverBacked db)
    (h : Step dir db op db') : CarryoverBacked db' ↔ op.ClosesBacked db := by
  have heffect := effect_of_step h
  by_cases hop : ∃ companyId asOf, op = .rollover companyId asOf
  · obtain ⟨companyId, asOf, rfl⟩ := hop
    cases heffect with
    | rollover =>
    constructor
    · intro hafter x hx
      exact (Db.backed_closeAccounts_iff hx (hkeyed.legs x _) (hbacked x.account _)).mp
        (hafter x.account (closingDay asOf))
    · intro hcloses a periodEnd
      by_cases ha : periodEnd = closingDay asOf ∧
          ∃ x ∈ db.catalog.assignmentsCovering companyId none (closingDay asOf), x.account = a
      · obtain ⟨rfl, x, hx, rfl⟩ := ha
        exact (Db.backed_closeAccounts_iff hx (hkeyed.legs x _) (hbacked x.account _)).mpr
          (hcloses x hx)
      · refine (Db.sameLegs_closeAccounts ?_).backed_iff.mpr (hbacked a periodEnd)
        by_cases hday : periodEnd = closingDay asOf
        · exact Or.inl fun x hx hxa => ha ⟨hday, x, hx, hxa⟩
        · exact Or.inr hday
  · have hnot : ∀ companyId asOf, op ≠ .rollover companyId asOf :=
      fun companyId asOf heq => hop ⟨companyId, asOf, heq⟩
    constructor
    · intro _
      cases op with
      | rollover companyId asOf => exact absurd rfl (hnot companyId asOf)
      | _ => trivial
    · exact fun _ a periodEnd => (heffect.sameLegs hnot a periodEnd).backed_iff.mpr
        (hbacked a periodEnd)

end steps

/-- **Carryover is backed by expiry while closings are**: in every state of a
run, every closing has carried over no more than it expired, exactly when every
rollover that meets a closing with its expiration posted and no carryover finds
that it took as much as there is to carry, or as may be carried. -/
theorem carryover_backed_iff {dir : Directory} {l : List (Db × Op × Db)} {db : Db}
    (h : Run dir .empty l db) :
    (∀ x ∈ l, CarryoverBacked x.2.2) ↔ ∀ x ∈ l, x.2.1.ClosesBacked x.1 := by
  have hkeyed : ClosingsKeyed .empty :=
    ⟨fun _ he => absurd he List.not_mem_nil, fun _ he => absurd he List.not_mem_nil⟩
  refine h.guard_iff ClosingsKeyed ⟨hkeyed, fun _ _ => le_refl 0⟩ ?_ ?_
  · rintro s op t ⟨hs, hbacked⟩ hguard hstep
    exact ⟨hs.step (effect_of_step hstep), (carryoverBacked_step_iff hs hbacked hstep).mpr hguard⟩
  · rintro s op t ⟨hs, hbacked⟩ hstep hafter
    exact (carryoverBacked_step_iff hs hbacked hstep).mp hafter

namespace Demo

/-- The policy carries over up to four hours, by a version from June 2026 on. -/
def carryFromJune : Op :=
  .catalog (.updatePolicy policyId nextVersionId none
    { effectiveFrom := ofYmd 2026 6 1, kind := .ACCRUAL, carryoverCapMinutes := some 240 }
    [{ method := .HOURS_WORKED, amount := 1, unit := .HOUR, perMinutesWorked := some 60
       id := nextRuleId }])

/-- A run of jobs and edits on the policy whose hours expire. -/
def expiringThen (ops : List Op) : Except Error (List (Db × Op × Db) × Db) :=
  Op.runAll directory (expiringHours ++ ops) .empty

/-- Two hours worked in December. -/
def twoHours (payrollRunId : String) : Op :=
  .onPayrollProcessed "cmp_warp_demo" payrollRunId (ofYmd 2026 12 31) (.singleton ("emp_ada", 120))

end Demo

/-- Closed again after the change, the year that expired two hours carries over
four. -/
theorem carryover_unbacked :
    ∃ db, Reachable Demo.directory db ∧
      db.ledger.expiredOn Demo.account (ofYmd 2026 12 31) = 120 ∧
      db.ledger.carriedInto Demo.account (ofYmd 2027 1 1) = 240 ∧
      ¬ CarryoverBacked db := by
  have hrun : (Demo.expiringThen [Demo.twoHours "run-1", Demo.newYear, Demo.carryFromJune,
      Demo.decemberRun "run-2", Demo.newYear]).passes (fun r =>
        r.2.ledger.expiredOn Demo.account (ofYmd 2026 12 31) = 120 ∧
        r.2.ledger.carriedInto Demo.account (ofYmd 2027 1 1) = 240 ∧
        (ofYmd 2026 12 31).addDays 1 = ofYmd 2027 1 1) = true := by decide +kernel
  obtain ⟨⟨l, db⟩, hr, htest⟩ := Except.ok_of_passes hrun
  obtain ⟨hexpired, hcarried, hnext⟩ := of_decide_eq_true htest
  refine ⟨db, ⟨l, run_of_runAll hr⟩, hexpired, hcarried, fun hbacked => ?_⟩
  have hle := hbacked Demo.account (ofYmd 2026 12 31)
  simp only [Backed] at hle
  rw [hnext, hexpired, hcarried] at hle
  exact absurd hle (by decide)

/-- Changed before it is closed, the year carries over what it may, and closing
it again for a late run carries nothing more. -/
theorem carryover_backed :
    ∃ l db, Demo.expiringThen [Demo.decemberRun "run-1", Demo.carryFromJune, Demo.newYear,
        Demo.decemberRun "run-2", Demo.newYear] = .ok (l, db) ∧
      db.ledger.carriedInto Demo.account (ofYmd 2027 1 1) = 240 ∧
      ∀ x ∈ l, CarryoverBacked x.2.2 := by
  have hrun : (Demo.expiringThen [Demo.decemberRun "run-1", Demo.carryFromJune, Demo.newYear,
      Demo.decemberRun "run-2", Demo.newYear]).passes (fun r =>
        r.2.ledger.carriedInto Demo.account (ofYmd 2027 1 1) = 240 ∧
        ∀ x ∈ r.1, x.2.1.ClosesBacked x.1) = true := by decide +kernel
  obtain ⟨⟨l, db⟩, hr, htest⟩ := Except.ok_of_passes hrun
  obtain ⟨hcarried, hguard⟩ := of_decide_eq_true htest
  exact ⟨l, db, hr, hcarried, (carryover_backed_iff (run_of_runAll hr)).mpr hguard⟩

end TimeOff
