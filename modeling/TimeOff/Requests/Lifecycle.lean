import TimeOff.System

/-!
# Requests along a run

What any run keeps of requests and snapshots. A stored request is `WellFormed`:
it has charged days, they add up to its total, and the version it froze is in
the catalog for good. The row of an account's snapshot changes in two columns,
and each operation is described by what it does to them: the hold (`Db.hold`) by
request operations only, the balance only together with the ledger
(`SnapshotsExact`).

The development has three layers:

- frame lemmas: what `afterSubmit`, `afterDecide`, `afterCancel`, `postAccruals`
  and `closeAccounts` leave alone, one simp lemma for each table;
- the two columns of a snapshot, each with a lemma for every statement that
  writes one (`hold_setHold_self`, `hold_post`, `cached_upsertBalance_self`);
- `RequestEffect`, a step with everything that is no request operation reduced
  to the entries it posts. An invariant of requests, holds or snapshots is
  proved by cases on it: three request operations and one case for all others.

By these cases `RequestsWellFormed` and `SnapshotsExact` hold in every reachable
state (`Reachable.requestsWellFormed`, `Reachable.snapshotsExact`). That
snapshots are exact is a fact about operations that run one at a time;
interleaved transactions can break it.
-/

namespace TimeOff

open Gregorian

/-! ## Well-formed requests

What a submission has checked and frozen. Updates do not touch it, and the
catalog keeps versions, so it holds of every stored request. -/

/-- What a stored request has frozen: at least one charged day, the minutes of
its days for a total, and a version that the catalog has. -/
structure TimeOffRequest.WellFormed (c : Catalog) (r : TimeOffRequest) : Prop where
  charged : r.days ≠ []
  positive : ∀ d ∈ r.days, 0 < d.minutes
  total_eq : r.totalMinutes = (r.days.map (·.minutes)).sum
  version : ∃ v, c.version r.policyVersionId = some v ∧ v.policyId = r.policyId

/-- A request costs something: every charged day has minutes. -/
theorem TimeOffRequest.WellFormed.total_pos {c : Catalog} {r : TimeOffRequest}
    (h : r.WellFormed c) : 0 < r.totalMinutes := by
  obtain ⟨d, rest, hdays⟩ := List.exists_cons_of_ne_nil h.charged
  have hd : 0 < d.minutes := h.positive d (hdays ▸ List.mem_cons_self ..)
  have hrest : 0 ≤ (rest.map (·.minutes)).sum := by
    refine List.sum_nonneg fun m hm => ?_
    obtain ⟨e, he, rfl⟩ := List.mem_map.mp hm
    exact le_of_lt (h.positive e (hdays ▸ List.mem_cons_of_mem _ he))
  rw [h.total_eq, hdays, List.map_cons, List.sum_cons]
  omega

/-- Deciding and cancelling keep what makes a request well formed. -/
theorem TimeOffRequest.WellFormed.update {c : Catalog} {r : TimeOffRequest} (h : r.WellFormed c)
    (u : RequestUpdate) : (r.update u).WellFormed c :=
  ⟨h.charged, h.positive, h.total_eq, h.version⟩

/-- The version it froze stays in the catalog. -/
theorem TimeOffRequest.WellFormed.grows {c d : Catalog} {r : TimeOffRequest} (h : r.WellFormed c)
    (hcd : c.Grows d) : r.WellFormed d := by
  obtain ⟨v, hv, hpolicy⟩ := h.version
  exact ⟨h.charged, h.positive, h.total_eq, v, hcd.version hv, hpolicy⟩

/-- What a submission stores is well formed. -/
theorem RequestService.Resolves.wellFormed {dir : Directory} {fields : RequestFields} {db : Db}
    {r : RequestService.Resolved} (h : RequestService.Resolves dir fields db r) (id : Uuid)
    (actorId reason : String) :
    (RequestService.newRequest id actorId reason fields r).WellFormed db.catalog := by
  obtain ⟨employee, -, -, hdays⟩ := h.employee
  obtain ⟨-, hne, hpos⟩ := requestDays_spec employee.work_positive hdays
  obtain ⟨hmem, hpolicy, -, -⟩ := Catalog.versionEffectiveOn_spec h.version
  exact ⟨hne, hpos, rfl, r.version, Catalog.version_eq_some.mpr ⟨hmem, rfl⟩, hpolicy⟩

/-- The version a request froze keeps balances: it is not `UNLIMITED`. -/
def Catalog.Keeps (c : Catalog) (r : TimeOffRequest) : Prop :=
  ∃ v ∈ c.version r.policyVersionId, v.kind ≠ .UNLIMITED

instance (c : Catalog) (r : TimeOffRequest) : Decidable (c.Keeps r) :=
  inferInstanceAs (Decidable (∃ v ∈ c.version r.policyVersionId, v.kind ≠ .UNLIMITED))

/-- Whether balances are kept is decided by the kind of the frozen version. -/
theorem Catalog.keeps_iff {c : Catalog} {r : TimeOffRequest} {v : PolicyVersion}
    (h : c.version r.policyVersionId = some v) : c.Keeps r ↔ v.kind ≠ .UNLIMITED := by
  unfold Catalog.Keeps
  rw [h]
  simp

/-- What a request froze stays what it is. -/
theorem TimeOffRequest.WellFormed.keeps_iff {c d : Catalog} {r : TimeOffRequest}
    (h : r.WellFormed c) (hcd : c.Grows d) : d.Keeps r ↔ c.Keeps r := by
  obtain ⟨v, hv, -⟩ := h.version
  rw [Catalog.keeps_iff hv, Catalog.keeps_iff (hcd.version hv)]

/-- All stored requests are well formed, under the versions that the catalog has
by now. -/
def RequestsWellFormed (db : Db) : Prop := ∀ r ∈ db.requests.rows, r.WellFormed db.catalog

/-! ## Effects on requests -/

namespace Db

variable {db : Db} {r row : TimeOffRequest} {a b : Account} {kind : PolicyKind} {u : RequestUpdate}
  {approve : Bool} {es : List LedgerEntry} {ps : List Posting}

/-- Jobs and rollovers write to the ledger and its snapshots only. -/
@[simp] theorem postAccruals_requests : (db.postAccruals ps).requests = db.requests := by
  obtain ⟨es, heq, -⟩ := postAccruals_eq_posts ps db
  rw [heq, posts_requests]

@[simp] theorem closeAccounts_requests (companyId : String) (periodEnd : Date)
    (assignments : List PolicyAssignment) :
    (db.closeAccounts companyId periodEnd assignments).requests = db.requests := by
  obtain ⟨es, heq, -⟩ := closeAccounts_eq_posts companyId periodEnd assignments db
  rw [heq, posts_requests]

@[simp] theorem closeAccounts_catalog (companyId : String) (periodEnd : Date)
    (assignments : List PolicyAssignment) :
    (db.closeAccounts companyId periodEnd assignments).catalog = db.catalog := by
  obtain ⟨es, heq, -⟩ := closeAccounts_eq_posts companyId periodEnd assignments db
  rw [heq, posts_catalog]

@[simp] theorem afterSubmit_requests :
    (db.afterSubmit row kind).requests = db.requests.insertNew row := by
  unfold afterSubmit
  dsimp only
  split <;> rfl

@[simp] theorem afterSubmit_catalog : (db.afterSubmit row kind).catalog = db.catalog := by
  unfold afterSubmit
  dsimp only
  split <;> rfl

@[simp] theorem afterSubmit_ledger : (db.afterSubmit row kind).ledger = db.ledger := by
  unfold afterSubmit
  dsimp only
  split <;> rfl

@[simp] theorem afterDebits_requests : (db.afterDebits r approve kind).requests = db.requests := by
  unfold afterDebits
  split <;> simp

@[simp] theorem afterDebits_catalog : (db.afterDebits r approve kind).catalog = db.catalog := by
  unfold afterDebits
  split <;> simp

@[simp] theorem afterDecide_requests :
    (db.afterDecide r approve kind u).requests
      = db.requests.modify r.id (TimeOffRequest.update u) fun _ => rfl := by
  have hdebits : ((db.ensureSnapshot r.account).afterDebits r approve kind).requests
      = db.requests := afterDebits_requests
  unfold afterDecide Stmt.setRequest release Stmt.setHold
  dsimp only
  split <;> simp only [hdebits]

@[simp] theorem afterDecide_catalog :
    (db.afterDecide r approve kind u).catalog = db.catalog := by
  have hdebits : ((db.ensureSnapshot r.account).afterDebits r approve kind).catalog
      = db.catalog := afterDebits_catalog
  unfold afterDecide Stmt.setRequest release Stmt.setHold
  dsimp only
  split <;> exact hdebits

@[simp] theorem afterCancel_requests :
    (db.afterCancel r u).requests
      = db.requests.modify r.id (TimeOffRequest.update u) fun _ => rfl := by
  have hposts : ((db.ensureSnapshot r.account).posts r.reversals).requests = db.requests :=
    posts_requests r.reversals
  unfold afterCancel Stmt.setRequest release Stmt.setHold
  dsimp only
  split
  · rfl
  · simp only [hposts]

@[simp] theorem afterCancel_catalog : (db.afterCancel r u).catalog = db.catalog := by
  have hposts : ((db.ensureSnapshot r.account).posts r.reversals).catalog = db.catalog :=
    posts_catalog r.reversals
  unfold afterCancel Stmt.setRequest release Stmt.setHold
  dsimp only
  split
  · rfl
  · exact hposts

/-- A snapshot that is created lazily posts nothing. -/
theorem ensureSnapshot_ledger (a : Account) (db : Db) :
    (db.ensureSnapshot a).ledger = db.ledger := rfl

/-- What posting leaves in the ledger depends on the ledger alone. -/
theorem posts_ledger_congr {db db' : Db} (h : db'.ledger = db.ledger) (es : List LedgerEntry) :
    (db'.posts es).ledger = (db.posts es).ledger := by
  induction es generalizing db db' with
  | nil => exact h
  | cons e es ih => exact ih (by rw [post_ledger, post_ledger, h])

/-- A decision posts the debits of an approval and nothing else. -/
theorem afterDecide_ledger :
    (db.afterDecide r approve kind u).ledger = (db.afterDebits r approve kind).ledger := by
  have hdebits : ((db.ensureSnapshot r.account).afterDebits r approve kind).ledger
      = (db.afterDebits r approve kind).ledger := by
    unfold afterDebits
    split
    · exact posts_ledger_congr (ensureSnapshot_ledger r.account db) r.debits
    · rfl
  unfold afterDecide Stmt.setRequest release Stmt.setHold
  dsimp only
  split <;> exact hdebits

/-- A cancellation reverses the debits of an approved request; a pending one has
none. -/
theorem afterCancel_ledger :
    (db.afterCancel r u).ledger
      = if r.status = .PENDING then db.ledger else (db.posts r.reversals).ledger := by
  unfold afterCancel Stmt.setRequest release Stmt.setHold
  dsimp only
  split
  · rfl
  · exact posts_ledger_congr (ensureSnapshot_ledger r.account db) r.reversals

end Db

/-- Versions are only appended. -/
theorem Effect.appends {dir : Directory} {db db' : Db} {op : Op} (h : Effect dir db op db') :
    db.catalog.Appends db'.catalog := by
  cases h with
  | catalog hc => exact CatalogOp.appends hc
  | submit => exact Or.inl (by rw [Db.afterSubmit_catalog])
  | decide => exact Or.inl (by rw [Db.afterDecide_catalog])
  | cancel => exact Or.inl (by rw [Db.afterCancel_catalog])
  | runScheduled => exact Or.inl (by simp [Db.recordRun])
  | onPayrollProcessed => exact Or.inl (by simp [Db.recordRun])
  | rollover => exact Or.inl (by simp [Db.recordRun])

/-- The catalog only grows. -/
theorem Effect.grows {dir : Directory} {db db' : Db} {op : Op} (h : Effect dir db op db') :
    db.catalog.Grows db'.catalog :=
  h.appends.grows

/-- Rates and caps of stored versions are in range. -/
theorem Reachable.valid {dir : Directory} {db : Db} (h : Reachable dir db) :
    ∀ v ∈ db.catalog.versions.rows, v.Valid := by
  obtain ⟨l, hl⟩ := h
  exact hl.invariant (I := fun db => ∀ v ∈ db.catalog.versions.rows, v.Valid)
    (fun v hv => absurd hv List.not_mem_nil)
    fun hvalid hstep => (effect_of_step hstep).grows.valid hvalid

/-- Stored tiers begin at different tenures and share one schedule. -/
theorem Reachable.tiered {dir : Directory} {db : Db} (h : Reachable dir db) :
    ∀ v ∈ db.catalog.versions.rows, v.Tiered := by
  obtain ⟨l, hl⟩ := h
  exact hl.invariant (I := fun db => ∀ v ∈ db.catalog.versions.rows, v.Tiered)
    (fun v hv => absurd hv List.not_mem_nil)
    fun htiered hstep => (effect_of_step hstep).appends.tiered htiered

/-- From any state of a run to its end, the catalog only grows. -/
theorem Run.grows {dir : Directory} {db₀ db : Db} {l : List (Db × Op × Db)} (h : Run dir db₀ l db)
    {x : Db × Op × Db} (hx : x ∈ l) : x.2.2.catalog.Grows db.catalog :=
  h.rel_last (R := fun s t => s.catalog.Grows t.catalog) (fun s => .refl s.catalog)
    (fun h₁ h₂ => h₁.trans h₂) (fun hstep => (effect_of_step hstep).grows) x hx

/-! ## Effects on holds

What each function on databases does to the hold of an account: a post does
nothing, a submission adds, a decision and a cancellation of a pending request
take away. -/

namespace Db

/-- The minutes held on an account: the cached counter of its snapshot. -/
def hold (db : Db) (a : Account) : Int :=
  ((db.snapshots.find? a).map (·.pendingHoldMinutes)).getD 0

variable {db : Db} {r row : TimeOffRequest} {a b : Account} {kind : PolicyKind} {u : RequestUpdate}
  {approve : Bool} {es : List LedgerEntry} {ps : List Posting}

/-- The hold of an account is read off its snapshot. -/
theorem hold_congr {db db' : Db} (h : db'.snapshots = db.snapshots) : db'.hold a = db.hold a := by
  unfold hold
  rw [h]

/-- A transaction that creates the snapshot finds a hold of zero in it, as the
missing row says. -/
theorem snapshotOf_hold : (db.snapshotOf a).pendingHoldMinutes = db.hold a := by
  unfold snapshotOf hold
  cases db.snapshots.find? a <;> rfl

theorem hold_ensureSnapshot : (db.ensureSnapshot a).hold b = db.hold b := by
  unfold hold ensureSnapshot
  dsimp only
  by_cases hab : b = a
  · subst hab
    cases hb : db.snapshots.find? b with
    | none =>
      have hnew := Table.find?_insertNew_self
        (r := (⟨b, db.ledger.balance b none, 0⟩ : BalanceSnapshot)) (Table.find?_eq_none.mp hb)
      rw [hnew]
      rfl
    | some row =>
      have hhas : db.snapshots.Has (⟨b, db.ledger.balance b none, 0⟩ : BalanceSnapshot).account :=
        Table.has_iff.mpr ⟨row, hb⟩
      rw [Table.insertNew_of_has hhas, hb]
  · rw [Table.find?_insertNew_of_ne (r := (⟨a, db.ledger.balance a none, 0⟩ : BalanceSnapshot)) hab]

/-- Refreshing a balance leaves the holds alone. -/
theorem hold_upsertBalance (n : Int) : (Stmt.upsertBalance db a n).hold b = db.hold b := by
  unfold hold
  by_cases hab : b = a
  · subst hab
    rw [find?_upsertBalance_self]
    rfl
  · rw [find?_upsertBalance_of_ne db n hab]

/-- Writing a hold changes the account it is written for. -/
theorem hold_setHold_self (h : db.snapshots.Has a) (n : Int) :
    (Stmt.setHold db a n).hold a = n := by
  obtain ⟨row, hrow⟩ := Table.has_iff.mp h
  unfold hold Stmt.setHold
  dsimp only
  rw [Table.find?_modify_self hrow]
  rfl

theorem hold_setHold_of_ne (h : b ≠ a) (n : Int) : (Stmt.setHold db a n).hold b = db.hold b := by
  unfold hold
  rw [find?_setHold_of_ne db n h]

/-- Posting entries holds and releases nothing. -/
theorem hold_post (e : LedgerEntry) : (db.post e).hold b = db.hold b := by
  unfold post
  split
  · rfl
  · exact hold_upsertBalance _

theorem hold_posts : (db.posts es).hold b = db.hold b := by
  induction es generalizing db with
  | nil => rfl
  | cons e es ih => rw [posts_cons, ih, hold_post]

theorem hold_setRequest (id : Uuid) : (Stmt.setRequest db id u).hold b = db.hold b := rfl

theorem has_upsertBalance {n : Int} :
    (Stmt.upsertBalance db a n).snapshots.Has b ↔ db.snapshots.Has b ∨ b = a := by
  unfold Stmt.upsertBalance
  rw [Table.has_modify, Table.has_insertNew]

theorem has_post {e : LedgerEntry} (h : db.snapshots.Has a) : (db.post e).snapshots.Has a := by
  unfold post
  split
  · exact h
  · exact has_upsertBalance.mpr (Or.inl h)

theorem has_posts (h : db.snapshots.Has a) : (db.posts es).snapshots.Has a := by
  induction es generalizing db with
  | nil => exact h
  | cons e es ih => exact ih (has_post h)

/-- Request operations leave the account with a snapshot. -/
theorem has_afterDebits (h : db.snapshots.Has a) :
    (db.afterDebits r approve kind).snapshots.Has a := by
  unfold afterDebits
  split
  · exact has_posts h
  · exact h

/-- No statement deletes a snapshot. -/
theorem has_setHold {n : Int} : (Stmt.setHold db a n).snapshots.Has b ↔ db.snapshots.Has b := by
  unfold Stmt.setHold
  rw [Table.has_modify]

theorem has_afterSubmit : (db.afterSubmit row kind).snapshots.Has row.account := by
  have hensure := RequestService.has_ensureSnapshot row.account db
  unfold afterSubmit
  dsimp only
  split
  · exact has_setHold.mpr hensure
  · exact hensure

theorem has_afterDecide : (db.afterDecide r approve kind u).snapshots.Has r.account := by
  have hdebits : ((db.ensureSnapshot r.account).afterDebits r approve kind).snapshots.Has
      r.account := has_afterDebits (RequestService.has_ensureSnapshot r.account db)
  unfold afterDecide release
  dsimp only
  split
  · exact has_setHold.mpr hdebits
  · exact hdebits

theorem has_afterCancel : (db.afterCancel r u).snapshots.Has r.account := by
  have hensure := RequestService.has_ensureSnapshot r.account db
  unfold afterCancel release
  dsimp only
  split
  · exact has_setHold.mpr hensure
  · exact has_posts hensure

/-- A submission holds the minutes of a request that keeps balances. -/
theorem hold_afterSubmit :
    (db.afterSubmit row kind).hold b
      = db.hold b + if kind ≠ .UNLIMITED ∧ row.account = b then row.totalMinutes else 0 := by
  unfold afterSubmit
  dsimp only
  by_cases hkind : kind = .UNLIMITED
  · rw [if_neg (not_not.mpr hkind), if_neg fun h => h.1 hkind, Int.add_zero]
    exact (hold_congr rfl).trans (hold_ensureSnapshot (a := row.account))
  · rw [if_pos hkind]
    by_cases hab : row.account = b
    · subst hab
      rw [if_pos ⟨hkind, rfl⟩, snapshotOf_hold]
      exact hold_setHold_self (RequestService.has_ensureSnapshot row.account db) _
    · rw [if_neg fun h => hab h.2, Int.add_zero, hold_setHold_of_ne (Ne.symm hab)]
      exact (hold_congr rfl).trans (hold_ensureSnapshot (a := row.account))

/-- A release takes the minutes of the request off the hold that was read. -/
theorem hold_release (h : db.snapshots.Has r.account) (n : Int) :
    (db.release r n).hold b = if r.account = b then n - r.totalMinutes else db.hold b := by
  unfold release
  split
  · next hab =>
    subst hab
    exact hold_setHold_self h _
  · next hab => exact hold_setHold_of_ne (Ne.symm hab) _

/-- The debits of an approval leave the holds alone. -/
theorem hold_afterDebits : (db.afterDebits r approve kind).hold b = db.hold b := by
  unfold afterDebits
  split
  · exact hold_posts
  · rfl

/-- A decision releases the hold of a request that keeps balances. -/
theorem hold_afterDecide :
    (db.afterDecide r approve kind u).hold b
      = db.hold b - if kind ≠ .UNLIMITED ∧ r.account = b then r.totalMinutes else 0 := by
  have hsame : ((db.ensureSnapshot r.account).afterDebits r approve kind).hold b = db.hold b :=
    hold_afterDebits.trans hold_ensureSnapshot
  unfold afterDecide
  dsimp only
  rw [hold_setRequest]
  by_cases hkind : kind = .UNLIMITED
  · rw [if_neg (not_not.mpr hkind), if_neg fun h => h.1 hkind, Int.sub_zero]
    exact hsame
  · have hhas : ((db.ensureSnapshot r.account).afterDebits r approve kind).snapshots.Has
        r.account := by
      unfold afterDebits
      split
      · exact has_posts (RequestService.has_ensureSnapshot r.account db)
      · exact RequestService.has_ensureSnapshot r.account db
    rw [if_pos hkind, hold_release hhas, hsame, snapshotOf_hold]
    by_cases hab : r.account = b
    · subst hab
      rw [if_pos rfl, if_pos ⟨hkind, rfl⟩]
    · rw [if_neg hab, if_neg fun h => hab h.2, Int.sub_zero]

/-- A cancellation releases the hold of any pending request. -/
theorem hold_afterCancel :
    (db.afterCancel r u).hold b
      = db.hold b - if r.status = .PENDING ∧ r.account = b then r.totalMinutes else 0 := by
  unfold afterCancel
  dsimp only
  rw [hold_setRequest]
  by_cases hpending : r.status = .PENDING
  · rw [if_pos hpending, hold_release (RequestService.has_ensureSnapshot r.account db),
      snapshotOf_hold, hold_ensureSnapshot]
    by_cases hab : r.account = b
    · subst hab
      rw [if_pos rfl, if_pos ⟨hpending, rfl⟩]
    · rw [if_neg hab, if_neg fun h => hab h.2, Int.sub_zero]
  · rw [if_neg hpending, if_neg fun h => hpending h.1, Int.sub_zero, hold_posts]
    exact hold_ensureSnapshot

end Db

/-! ## Balances of snapshots

A post writes the sum of the ledger into the snapshot, and nothing else touches
its balance: so snapshots stay exact. -/

/-- The minutes of an account that no pending request holds. -/
def Db.available (db : Db) (a : Account) : Int := db.ledger.balance a none - db.hold a

/-- The balance in the snapshot of an account, if there is one. -/
def Db.cached (db : Db) (a : Account) : Option Int :=
  (db.snapshots.find? a).map (·.balanceMinutes)

/-- The snapshot of an account has the balance of the ledger. -/
def SnapshotExact (a : Account) (db : Db) : Prop :=
  ∀ n ∈ db.cached a, n = db.ledger.balance a none

instance (a : Account) (db : Db) : Decidable (SnapshotExact a db) :=
  inferInstanceAs (Decidable (∀ n ∈ db.cached a, n = db.ledger.balance a none))

/-- Every stored snapshot has the balance of the ledger. -/
def SnapshotsExact (db : Db) : Prop :=
  ∀ row ∈ db.snapshots.rows, row.balanceMinutes = db.ledger.balance row.account none

/-- A snapshot that is not stored caches nothing that could be wrong. -/
theorem snapshotsExact_iff {db : Db} : SnapshotsExact db ↔ ∀ a, SnapshotExact a db := by
  constructor
  · intro h a n hn
    obtain ⟨row, hrow, rfl⟩ := Option.map_eq_some_iff.mp hn
    obtain ⟨hmem, rfl⟩ := Table.find?_eq_some.mp hrow
    exact h row hmem
  · intro h row hrow
    have hfind : db.snapshots.find? row.account = some row :=
      Table.find?_eq_some.mpr ⟨hrow, rfl⟩
    refine h row.account row.balanceMinutes ?_
    unfold Db.cached
    rw [hfind]
    rfl

namespace Db

variable {db : Db} {a b : Account}

/-- A refresh caches the new sum. -/
theorem cached_upsertBalance_self (n : Int) :
    (Stmt.upsertBalance db a n).cached a = some n := by
  unfold cached
  rw [find?_upsertBalance_self]
  rfl

theorem cached_upsertBalance_of_ne (n : Int) (h : b ≠ a) :
    (Stmt.upsertBalance db a n).cached b = db.cached b := by
  unfold cached
  rw [find?_upsertBalance_of_ne db n h]

/-- A hold is written beside the cached balance. -/
theorem cached_setHold (n : Int) : (Stmt.setHold db a n).cached b = db.cached b := by
  by_cases hb : b = a
  · subst hb
    unfold cached Stmt.setHold
    dsimp only
    cases hrow : db.snapshots.find? b with
    | none => rw [Table.modify_of_not_has (Table.find?_eq_none.mp hrow), hrow]
    | some row =>
      rw [Table.find?_modify_self hrow]
      rfl
  · unfold cached
    rw [find?_setHold_of_ne db n hb]

end Db

namespace SnapshotExact

variable {db db' : Db} {r row : TimeOffRequest} {a b : Account} {kind : PolicyKind}
  {u : RequestUpdate} {approve : Bool} {es : List LedgerEntry}

/-- A transaction reads the balance of the ledger, whether it finds a snapshot
or creates one. -/
theorem snapshotOf (h : SnapshotExact a db) :
    (db.snapshotOf a).balanceMinutes = db.ledger.balance a none := by
  unfold Db.snapshotOf
  cases hrow : db.snapshots.find? a with
  | none => rfl
  | some row =>
    refine h row.balanceMinutes ?_
    unfold Db.cached
    rw [hrow]
    rfl

/-- So it reads what is available. -/
theorem available (h : SnapshotExact a db) :
    (db.snapshotOf a).balanceMinutes - (db.snapshotOf a).pendingHoldMinutes = db.available a := by
  rw [h.snapshotOf, Db.snapshotOf_hold]
  rfl

/-- Exactness is about the ledger and the snapshots. -/
theorem congr (h : SnapshotExact a db) (hledger : db'.ledger = db.ledger)
    (hsnapshots : db'.snapshots = db.snapshots) : SnapshotExact a db' := by
  unfold SnapshotExact Db.cached
  rw [hledger, hsnapshots]
  exact h

theorem ensureSnapshot (h : SnapshotExact a db) : SnapshotExact a (db.ensureSnapshot b) := by
  intro n hn
  obtain ⟨row, hrow, rfl⟩ := Option.map_eq_some_iff.mp hn
  obtain ⟨hmem, rfl⟩ := Table.find?_eq_some.mp hrow
  rcases Table.mem_insertNew hmem with hold | ⟨rfl, -⟩
  · refine h row.balanceMinutes ?_
    have hfind : db.snapshots.find? row.account = some row :=
      Table.find?_eq_some.mpr ⟨hold, rfl⟩
    unfold Db.cached
    rw [hfind]
    rfl
  · rfl

theorem setHold (h : SnapshotExact a db) (n : Int) : SnapshotExact a (Stmt.setHold db b n) := by
  intro m hm
  rw [Db.cached_setHold] at hm
  exact h m hm

theorem post (h : SnapshotExact a db) (e : LedgerEntry) : SnapshotExact a (db.post e) := by
  unfold Db.post
  split
  · exact h
  next hnew =>
  intro n hn
  show n = Ledger.balance (Table.insertNew db.ledger e) a none
  by_cases ha : a = e.account
  · subst ha
    rw [Db.cached_upsertBalance_self] at hn
    exact (Option.some.inj hn).symm
  · -- the balances of other accounts do not see the entry
    rw [Db.cached_upsertBalance_of_ne _ ha] at hn
    rw [Ledger.balance_insertNew hnew, Ledger.part_of_ne (Ne.symm ha), Int.add_zero]
    exact h n hn

theorem posts (h : SnapshotExact a db) : SnapshotExact a (db.posts es) := by
  induction es generalizing db with
  | nil => exact h
  | cons e es ih => exact ih (h.post e)

theorem afterSubmit (h : SnapshotExact a db) : SnapshotExact a (db.afterSubmit row kind) := by
  unfold Db.afterSubmit
  dsimp only
  split
  · exact (h.ensureSnapshot.congr rfl rfl).setHold _
  · exact h.ensureSnapshot.congr rfl rfl

theorem afterDecide (h : SnapshotExact a db) :
    SnapshotExact a (db.afterDecide r approve kind u) := by
  have hdebits : SnapshotExact a ((db.ensureSnapshot r.account).afterDebits r approve kind) := by
    unfold Db.afterDebits
    split
    · exact h.ensureSnapshot.posts
    · exact h.ensureSnapshot
  unfold Db.afterDecide
  dsimp only
  split
  · exact (hdebits.setHold _).congr rfl rfl
  · exact hdebits.congr rfl rfl

theorem afterCancel (h : SnapshotExact a db) : SnapshotExact a (db.afterCancel r u) := by
  unfold Db.afterCancel
  dsimp only
  split
  · exact (h.ensureSnapshot.setHold _).congr rfl rfl
  · exact h.ensureSnapshot.posts.congr rfl rfl

end SnapshotExact

/-- There is no snapshot yet. -/
theorem snapshotsExact_empty : SnapshotsExact .empty := fun _ h => absurd h List.not_mem_nil

/-! ## A step as the requests see it

A step stores a request, settles one, or leaves requests and holds alone and
posts under sources of its own. -/

/-- The entries of the two accrual jobs name no request. -/
theorem sourceType_of_scheduledPlan {dir : Directory} {cat : Catalog} {companyId : String}
    {asOf : Date} {ps : List Posting} {p : Posting}
    (h : AccrualService.scheduledPlan cat dir companyId asOf = .ok ps) (hp : p ∈ ps) :
    p.sourceType = .SCHEDULED_ACCRUAL := by
  obtain ⟨s, period, hs⟩ := AccrualService.mem_scheduledPlan h hp
  rw [hs.posting_eq]
  rfl

theorem sourceType_of_payrollPlan {dir : Directory} {cat : Catalog}
    {companyId payrollRunId : String} {periodEnd : Date}
    {minutesByEmployee : AccrualService.MinutesByEmployee} {ps : List Posting} {p : Posting}
    (h : AccrualService.payrollPlan cat dir companyId payrollRunId periodEnd minutesByEmployee
      = .ok ps) (hp : p ∈ ps) : p.sourceType = .PAYROLL_ACCRUAL := by
  obtain ⟨entry, -, employee, assignment, version, rule, hpaid⟩ :=
    AccrualService.mem_payrollPlan h hp
  rw [(AccrualService.payrollDecision_eq_some hpaid.decision).2.2.2]

/-- A step, with all that is no request operation reduced to what it posts. -/
inductive RequestEffect (db : Db) : Op → Db → Prop
  | other {op : Op} {db' : Db} {es : List LedgerEntry} (hrequests : db'.requests = db.requests)
      (hledger : db'.ledger = (db.posts es).ledger)
      (hsnapshots : db'.snapshots = (db.posts es).snapshots)
      (hes : ∀ e ∈ es, e.sourceType ≠ .REQUEST ∧ e.sourceType ≠ .REQUEST_CANCELLATION)
      (hop : ∀ actor id today, op ≠ .cancel actor id today) : RequestEffect db op db'
  | submit {actor : Employee} {id : Uuid} {reason : String} {fields : RequestFields}
      {row : TimeOffRequest} {v : PolicyVersion} (hwf : row.WellFormed db.catalog)
      (hpending : row.status = .PENDING) (hnew : ¬ db.requests.Has row.id)
      (hv : db.catalog.version row.policyVersionId = some v) :
      RequestEffect db (.submit actor id reason fields) (db.afterSubmit row v.kind)
  | decide {actor : Employee} {approve : Bool} {note : Option String} {r : TimeOffRequest}
      {v : PolicyVersion} (hr : r ∈ db.requests.rows) (hpending : r.status = .PENDING)
      (hv : db.catalog.version r.policyVersionId = some v) :
      RequestEffect db (.decide actor r.id approve note)
        (db.afterDecide r approve v.kind (RequestService.decision approve actor.id note))
  | cancel {actor : Employee} {today : Date} {r : TimeOffRequest} (hr : r ∈ db.requests.rows)
      (hlive : r.status.LIVE = true) :
      RequestEffect db (.cancel actor r.id today)
        (db.afterCancel r (RequestService.cancellation r.status actor.id))

/-- Every step is one of the three request operations or leaves requests and
holds alone. -/
theorem Effect.onRequests {dir : Directory} {db db' : Db} {op : Op} (h : Effect dir db op db') :
    RequestEffect db op db' := by
  cases h with
  | catalog => exact .other rfl (Eq.refl (db.posts []).ledger) rfl (fun _ h => by cases h) nofun
  | @submit actor id reason fields r row hrow hres hnew _ =>
    subst hrow
    exact .submit (hres.wellFormed id actor.id reason) rfl hnew
      (Catalog.version_eq_some.mpr ⟨(Catalog.versionEffectiveOn_spec hres.version).1, rfl⟩)
  | @decide actor id approve note r v hfind hpending hv _ =>
    obtain ⟨hr, rfl⟩ := Table.find?_eq_some.mp hfind
    exact .decide hr hpending hv
  | @cancel actor id today r hfind hlive _ =>
    obtain ⟨hr, rfl⟩ := Table.find?_eq_some.mp hfind
    exact .cancel hr hlive
  | @runScheduled companyId asOf ps outcome hplan =>
    obtain ⟨es, heq, hes⟩ := Db.postAccruals_eq_posts ps db
    rw [heq]
    refine .other (Db.posts_requests es) rfl rfl (fun e he => ?_) nofun
    obtain ⟨p, hp, hpost⟩ := hes e he
    rw [hpost.sourceType, sourceType_of_scheduledPlan hplan hp]
    exact ⟨nofun, nofun⟩
  | @onPayrollProcessed companyId payrollRunId periodEnd minutesByEmployee ps outcome hplan =>
    obtain ⟨es, heq, hes⟩ := Db.postAccruals_eq_posts ps db
    rw [heq]
    refine .other (Db.posts_requests es) rfl rfl (fun e he => ?_) nofun
    obtain ⟨p, hp, hpost⟩ := hes e he
    rw [hpost.sourceType, sourceType_of_payrollPlan hplan hp]
    exact ⟨nofun, nofun⟩
  | @rollover companyId asOf outcome =>
    obtain ⟨es, heq, hes⟩ := Db.closeAccounts_eq_posts companyId (RolloverService.closingDay asOf)
      (db.catalog.assignmentsCovering companyId none (RolloverService.closingDay asOf)) db
    rw [heq]
    refine .other (Db.posts_requests es) rfl rfl (fun e he => ?_) nofun
    obtain ⟨assignment, -, version, balance, -, hclosing⟩ := hes e he
    rw [RolloverService.sourceType_of_closingEntries hclosing]
    exact ⟨nofun, nofun⟩

/-- No step breaks a stored request: rows are only updated in status and decision. -/
theorem Effect.requestsWellFormed {dir : Directory} {db db' : Db} {op : Op}
    (h : Effect dir db op db') (hwf : RequestsWellFormed db) : RequestsWellFormed db' := by
  have hgrows := h.grows
  -- the requests before the step are still well formed
  have hkeep : ∀ r ∈ db.requests.rows, r.WellFormed db'.catalog :=
    fun r hr => (hwf r hr).grows hgrows
  intro r' hr'
  cases h.onRequests with
  | other hrequests _ _ _ _ =>
    rw [hrequests] at hr'
    exact hkeep r' hr'
  | submit hrow _ _ _ =>
    rw [Db.afterSubmit_requests] at hr'
    rcases Table.mem_insertNew hr' with hold | ⟨rfl, -⟩
    · exact hkeep r' hold
    · exact hrow.grows hgrows
  | decide hr _ _ =>
    rw [Db.afterDecide_requests] at hr'
    rcases Table.eq_or_mem_of_mem_modify hr hr' with rfl | ⟨hs, -⟩
    · exact (hkeep _ hr).update _
    · exact hkeep r' hs
  | cancel hr _ =>
    rw [Db.afterCancel_requests] at hr'
    rcases Table.eq_or_mem_of_mem_modify hr hr' with rfl | ⟨hs, -⟩
    · exact (hkeep _ hr).update _
    · exact hkeep r' hs

/-- Run one at a time, operations keep the snapshots exact. -/
theorem RequestEffect.snapshotsExact {db db' : Db} {op : Op} (h : RequestEffect db op db')
    (hexact : SnapshotsExact db) : SnapshotsExact db' := by
  rw [snapshotsExact_iff] at hexact ⊢
  intro a
  have ha := hexact a
  cases h with
  | other _ hledger hsnapshots _ _ => exact ha.posts.congr hledger hsnapshots
  | submit => exact ha.afterSubmit
  | decide => exact ha.afterDecide
  | cancel => exact ha.afterCancel

/-- So every reachable state has exact snapshots. -/
theorem Reachable.snapshotsExact {dir : Directory} {db : Db} (h : Reachable dir db) :
    SnapshotsExact db := by
  obtain ⟨l, hl⟩ := h
  exact hl.invariant snapshotsExact_empty
    fun hexact hstep => (effect_of_step hstep).onRequests.snapshotsExact hexact

theorem requestsWellFormed_empty : RequestsWellFormed .empty := fun _ h => absurd h List.not_mem_nil

theorem Reachable.requestsWellFormed {dir : Directory} {db : Db} (h : Reachable dir db) :
    RequestsWellFormed db := by
  obtain ⟨l, hl⟩ := h
  exact hl.invariant requestsWellFormed_empty
    fun hwf hstep => (effect_of_step hstep).requestsWellFormed hwf

end TimeOff
