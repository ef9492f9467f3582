import TimeOff.Services.Requests

/-!
# Requests run alone

What a request operation that runs alone does to the database, as one function
of the state it starts in (`Db.afterSubmit`, `Db.afterDecide`,
`Db.afterCancel`), and what must have held for it to succeed (`submit_cases`,
`decide_cases`, `cancel_cases`).

The functions are the only description of these operations that later modules
use. They are found part by part. A snapshot that is read for update or created
lazily gives `Db.snapshotOf` and leaves `Db.ensureSnapshot` (`run_snapshot`);
the checks give facts about these (`resolve_cases`, `checkBalance_cases`); what
remains are writes. Run alone, a row that was loaded and a row that is locked
are the same, so the difference between a locking and a plain read, which
decides what interleaved requests do, does not show here.
-/

namespace TimeOff

open Gregorian

namespace Db

/-- The snapshot a transaction finds or creates for an account. -/
def snapshotOf (a : Account) (db : Db) : BalanceSnapshot :=
  (db.snapshots.find? a).getD ⟨a, db.ledger.balance a none, 0⟩

/-- The database once the account has a snapshot row. -/
def ensureSnapshot (a : Account) (db : Db) : Db :=
  { db with snapshots := db.snapshots.insertNew ⟨a, db.ledger.balance a none, 0⟩ }

/-- The database after a submission: the row is stored, and its minutes are held
if the version keeps balances. -/
def afterSubmit (row : TimeOffRequest) (kind : PolicyKind) (db : Db) : Db :=
  let stored : Db :=
    { db.ensureSnapshot row.account with requests := db.requests.insertNew row }
  if kind ≠ .UNLIMITED then
    Stmt.setHold stored row.account
      ((db.snapshotOf row.account).pendingHoldMinutes + row.totalMinutes)
  else stored

/-- The debits of an approval under a version that keeps balances. -/
def afterDebits (r : TimeOffRequest) (approve : Bool) (kind : PolicyKind) (db : Db) : Db :=
  if approve ∧ kind ≠ .UNLIMITED then db.posts r.debits else db

/-- The hold of a request that keeps balances is released. -/
def release (r : TimeOffRequest) (hold : Int) (db : Db) : Db :=
  Stmt.setHold db r.account (hold - r.totalMinutes)

/-- The database after a decision: an approval is debited, the hold released,
the row updated. -/
def afterDecide (r : TimeOffRequest) (approve : Bool) (kind : PolicyKind) (u : RequestUpdate)
    (db : Db) : Db :=
  let debited := (db.ensureSnapshot r.account).afterDebits r approve kind
  let released :=
    if kind ≠ .UNLIMITED then
      debited.release r (db.snapshotOf r.account).pendingHoldMinutes
    else debited
  Stmt.setRequest released r.id u

/-- The database after a cancellation: a pending request releases its hold, an
approved one is reversed, and the row is updated. -/
def afterCancel (r : TimeOffRequest) (u : RequestUpdate) (db : Db) : Db :=
  let settled :=
    if r.status = .PENDING then
      (db.ensureSnapshot r.account).release r (db.snapshotOf r.account).pendingHoldMinutes
    else (db.ensureSnapshot r.account).posts r.reversals
  Stmt.setRequest settled r.id u

end Db

namespace RequestService

/-- Run alone, a plain read of the snapshot is as good as a locking one. -/
theorem run_snapshot_unlocked (a : Account) (db : Db) :
    Tx.run (snapshot a false none) db = Tx.run (snapshot a true none) db := by
  unfold snapshot
  refine (Tx.run_query (q := .snapshot a) rfl).trans (Eq.symm ?_)
  exact (Tx.run_perform (s := .lockSnapshot a) rfl).trans rfl

/-- Run alone, `_snapshot` finds the row of the account or creates it. -/
theorem run_snapshot (a : Account) (lock : Bool) (db : Db) :
    Tx.run (snapshot a lock none) db = .ok (db.snapshotOf a, db.ensureSnapshot a) := by
  suffices h : Tx.run (snapshot a true none) db = .ok (db.snapshotOf a, db.ensureSnapshot a) by
    cases lock with
    | true => exact h
    | false => exact (run_snapshot_unlocked a db).trans h
  unfold snapshot Db.snapshotOf Db.ensureSnapshot
  refine (Tx.run_perform (s := .lockSnapshot a) rfl).trans ?_
  cases h : db.snapshots.find? a with
  | some row =>
    have hhas : db.snapshots.Has (⟨a, db.ledger.balance a none, 0⟩ : BalanceSnapshot).account :=
      Table.has_iff.mpr ⟨row, h⟩
    rw [Table.insertNew_of_has hhas]
    rfl
  | none =>
    have hhas : ¬ db.snapshots.Has (⟨a, db.ledger.balance a none, 0⟩ : BalanceSnapshot).account :=
      Table.find?_eq_none.mp h
    have hans : Stmt.answer db (.insertSnapshot ⟨a, db.ledger.balance a none, 0⟩) = .ok () :=
      if_neg hhas
    exact (Tx.run_query (q := .balance a none) rfl).trans
      (Tx.run_perform (s := .insertSnapshot ⟨a, db.ledger.balance a none, 0⟩) hans)

/-- A second locking read of a snapshot the session has loaded. -/
theorem run_snapshot_again {a : Account} {db : Db} (h : db.snapshots.Has a)
    (loaded : BalanceSnapshot) :
    Tx.run (snapshot a true (some loaded)) db = .ok (loaded, db) := by
  obtain ⟨row, hrow⟩ := Table.has_iff.mp h
  unfold snapshot
  refine (Tx.run_perform (s := .lockSnapshot a) rfl).trans ?_
  dsimp only [Stmt.apply]
  rw [hrow]
  rfl

/-- Then the account has one. -/
theorem has_ensureSnapshot (a : Account) (db : Db) : (db.ensureSnapshot a).snapshots.Has a :=
  Table.has_insertNew.mpr (Or.inr rfl)

/-! ## Submitting

The plain reads come first and write nothing; what follows is the balance check
and one insert. -/

/-- What `resolve` has checked when it returns. -/
structure Resolves (dir : Directory) (fields : RequestFields) (db : Db) (r : Resolved) : Prop where
  employee : ∃ employee, dir.employee fields.employeeId = .ok employee ∧
    db.catalog.assignmentForCategory employee.companyId fields.employeeId fields.categoryId
      fields.startDate = .ok (some r.assignment) ∧
    requestDays fields.startDate fields.endDate fields.partialMinutes employee.workMinutesPerDay
      employee.workDays (db.catalog.holidayDates r.assignment.companyId fields.startDate
        fields.endDate) = .ok r.days
  covers : ∀ last ∈ r.assignment.effectiveTo, fields.endDate ≤ last
  version : db.catalog.versionEffectiveOn r.assignment.policyId fields.startDate = some r.version
  apart : ∀ other ∈ db.requests.rows, other.employeeId = fields.employeeId →
    other.status.LIVE = true → ¬ other.Overlaps fields.startDate fields.endDate

/-- A resolution that goes through has passed its checks, and wrote nothing. -/
theorem resolve_cases {dir : Directory} {fields : RequestFields} {db db' : Db} {r : Resolved}
    (h : Tx.run (resolve dir fields) db = .ok (r, db')) : Resolves dir fields db r ∧ db' = db := by
  unfold resolve at h
  obtain ⟨employee, hemp, h⟩ := Tx.run_lift_ok.mp h
  obtain ⟨found, hassign, h⟩ := Tx.run_query_ok.mp h
  cases hcover : found.filter fun a => ¬ ∃ last ∈ a.effectiveTo, last < fields.endDate with
  | none =>
    rw [hcover] at h
    cases h
  | some assignment =>
  rw [hcover] at h
  obtain ⟨rfl, hcov⟩ := Option.filter_eq_some_iff.mp hcover
  obtain ⟨found, hversion, h⟩ := Tx.run_query_ok.mp h
  cases found with
  | none => cases h
  | some version =>
  obtain ⟨holidays, hholidays, h⟩ := Tx.run_query_ok.mp h
  obtain ⟨days, hdays, h⟩ := Tx.run_lift_ok.mp h
  obtain ⟨overlap, hoverlap, h⟩ := Tx.run_query_ok.mp h
  cases hholidays
  cases hoverlap
  split at h
  · cases h
  · next hnone =>
    cases h
    refine ⟨⟨⟨employee, hemp, hassign, hdays⟩, ?_, Except.ok.inj hversion, ?_⟩, rfl⟩
    · intro last hlast
      have := of_decide_eq_true hcov
      push Not at this
      exact this last hlast
    · intro other hmem hemp' hlive hover
      refine hnone ?_
      rw [Option.isSome_map, List.find?_isSome]
      exact ⟨other, hmem, decide_eq_true ⟨hemp', hlive, hover⟩⟩

/-- The balance check passes when the policy keeps no balance or the floor
holds, and leaves the account with a snapshot. -/
theorem checkBalance_cases {employeeId : String} {lockBalance : Bool} {r : Resolved} {db db' : Db}
    {result : Preview} (h : Tx.run (checkBalance employeeId lockBalance r) db = .ok (result, db')) :
    result.toResolved = r ∧ result.snapshot = db.snapshotOf (r.account employeeId) ∧
      result.availableMinutes = (db.snapshotOf (r.account employeeId)).balanceMinutes
        - (db.snapshotOf (r.account employeeId)).pendingHoldMinutes ∧
      db' = db.ensureSnapshot (r.account employeeId) ∧
      (r.version.kind ≠ .UNLIMITED →
        r.version.floor ≤ (db.snapshotOf (r.account employeeId)).balanceMinutes
          - (db.snapshotOf (r.account employeeId)).pendingHoldMinutes - r.totalMinutes) := by
  unfold checkBalance at h
  have h := (Program.exec_bind_of_ok
    (run_snapshot (r.account employeeId) lockBalance db)).symm.trans h
  dsimp only at h
  split at h
  · cases h
  · next hfloor =>
    cases h
    refine ⟨rfl, rfl, rfl, rfl, fun hkind => ?_⟩
    exact not_lt.mp fun hlt => hfloor ⟨hkind, hlt⟩

/-- A request is inserted under a free id. -/
theorem run_insertRequest {row : TimeOffRequest} {db db' : Db} {x : TimeOffRequest}
    {f : Unit → Tx TimeOffRequest}
    (h : Tx.run (Program.perform (Stmt.insertRequest row) >>= f) db = .ok (x, db')) :
    ¬ db.requests.Has row.id ∧
      Tx.run (f ()) { db with requests := db.requests.insertNew row } = .ok (x, db') := by
  by_cases hhas : db.requests.Has row.id
  · have hans : Stmt.answer db (.insertRequest row) = .error .integrity := if_pos hhas
    have := (Tx.run_perform_error (s := .insertRequest row) hans).symm.trans h
    cases this
  · have hans : Stmt.answer db (.insertRequest row) = .ok () := if_neg hhas
    exact ⟨hhas, (Tx.run_perform (s := .insertRequest row) hans).symm.trans h⟩

/-- Everything a successful submission is after its plain reads. -/
theorem charge_cases {id : Uuid} {actorId reason : String} {fields : RequestFields} {r : Resolved}
    {db db' : Db} {row : TimeOffRequest}
    (h : Tx.run (charge id actorId reason fields r) db = .ok (row, db')) :
    row = newRequest id actorId reason fields r ∧ ¬ db.requests.Has id ∧
      (r.version.kind ≠ .UNLIMITED →
        r.version.floor ≤ (db.snapshotOf row.account).balanceMinutes
          - (db.snapshotOf row.account).pendingHoldMinutes - row.totalMinutes) ∧
      db' = db.afterSubmit row r.version.kind := by
  obtain ⟨result, db₁, hcheck, h⟩ := Program.exec_bind_ok.mp h
  obtain ⟨hresult, hsnap, -, rfl, hfloor⟩ := checkBalance_cases hcheck
  have hversion : result.version = r.version := congrArg (·.version) hresult
  unfold store at h
  rw [hversion, hsnap] at h
  split at h
  · next hkind =>
    have h := (Program.exec_bind_of_ok (run_snapshot_again
      (has_ensureSnapshot (newRequest id actorId reason fields r).account db) _)).symm.trans h
    obtain ⟨hnew, h⟩ := run_insertRequest h
    cases h
    refine ⟨rfl, hnew, hfloor, ?_⟩
    unfold Db.afterSubmit
    rw [if_pos hkind]
    rfl
  · next hkind =>
    obtain ⟨hnew, h⟩ := run_insertRequest h
    cases h
    refine ⟨rfl, hnew, hfloor, ?_⟩
    unfold Db.afterSubmit
    rw [if_neg hkind]
    rfl

/-- Everything a successful submission is. -/
theorem submit_cases {dir : Directory} {id : Uuid} {actorId reason : String}
    {fields : RequestFields} {db db' : Db} {row : TimeOffRequest}
    (h : Tx.run (submit dir id actorId reason fields) db = .ok (row, db')) :
    ∃ r, Resolves dir fields db r ∧ row = newRequest id actorId reason fields r ∧
      ¬ db.requests.Has id ∧
      (r.version.kind ≠ .UNLIMITED →
        r.version.floor ≤ (db.snapshotOf row.account).balanceMinutes
          - (db.snapshotOf row.account).pendingHoldMinutes - row.totalMinutes) ∧
      db' = db.afterSubmit row r.version.kind := by
  obtain ⟨r, db₁, hr, hcharge⟩ := Program.exec_bind_ok.mp h
  obtain ⟨hres, rfl⟩ := resolve_cases hr
  exact ⟨r, hres, charge_cases hcharge⟩

/-! ## Deciding

A decision on a pending request, by what it does to the database in each of its
branches. -/

/-- The version a request froze is the one with its version id. -/
theorem run_frozenVersion (r : TimeOffRequest) (db : Db) :
    Tx.run (frozenVersion r) db = .ok (db.catalog.version r.policyVersionId, db) := by
  unfold frozenVersion
  refine (Tx.run_query (q := .versionEffectiveOn r.policyId r.startDate) rfl).trans ?_
  split
  · next hid =>
    cases hv : db.catalog.versionEffectiveOn r.policyId r.startDate with
    | none =>
      rw [hv] at hid
      cases hid
    | some v =>
      rw [hv] at hid
      have hid : v.id = r.policyVersionId := Option.some.inj hid
      have hmem := (Catalog.versionEffectiveOn_spec hv).1
      rw [← hid, Catalog.version_eq_some.mpr ⟨hmem, rfl⟩]
      rfl
  · rfl

/-- An approval that goes through keeps the floor of its version. -/
theorem debitRequest_cases {r : TimeOffRequest} {approve : Bool} {v : PolicyVersion}
    {row : BalanceSnapshot} {db db' : Db} {u : Unit}
    (h : Tx.run (debitRequest r approve v row) db = .ok (u, db')) :
    (approve ∧ v.kind ≠ .UNLIMITED →
      v.floor ≤ row.balanceMinutes - row.pendingHoldMinutes) ∧
      db' = db.afterDebits r approve v.kind := by
  unfold debitRequest at h
  unfold Db.afterDebits
  split at h
  · next hc =>
    split at h
    · cases h
    · next hfloor =>
      have h := (run_postEach _ _).symm.trans h
      cases h
      exact ⟨fun _ => not_lt.mp hfloor, (if_pos hc).symm⟩
  · next hc =>
    cases h
    exact ⟨fun h => absurd h hc, (if_neg hc).symm⟩

/-- The hold is released where the version keeps balances. -/
theorem run_releaseHold (r : TimeOffRequest) (v : PolicyVersion) (row : BalanceSnapshot) (db : Db) :
    Tx.run (releaseHold r v row) db
      = .ok ((), if v.kind ≠ .UNLIMITED then db.release r row.pendingHoldMinutes else db) := by
  unfold releaseHold
  split <;> rfl

/-- The debits of an approval that keeps the floor. -/
theorem run_debitRequest {r : TimeOffRequest} {approve : Bool} {v : PolicyVersion}
    {row : BalanceSnapshot}
    (h : approve ∧ v.kind ≠ .UNLIMITED → v.floor ≤ row.balanceMinutes - row.pendingHoldMinutes)
    (db : Db) :
    Tx.run (debitRequest r approve v row) db = .ok ((), db.afterDebits r approve v.kind) := by
  unfold debitRequest Db.afterDebits
  by_cases hc : approve ∧ v.kind ≠ .UNLIMITED
  · rw [if_pos hc, if_pos hc, if_neg (not_lt.mpr (h hc))]
    exact run_postEach _ _
  · rw [if_neg hc, if_neg hc]
    rfl

/-- A pending request can be decided, if an approval keeps its floor. -/
theorem run_decide {id : Uuid} {approve : Bool} {actorId : String} {note : Option String}
    {db : Db} {r : TimeOffRequest} {v : PolicyVersion} (hfind : db.requests.find? id = some r)
    (hpending : r.status = .PENDING) (hv : db.catalog.version r.policyVersionId = some v)
    (hfloor : approve ∧ v.kind ≠ .UNLIMITED →
      v.floor ≤ (db.snapshotOf r.account).balanceMinutes
        - (db.snapshotOf r.account).pendingHoldMinutes) :
    Tx.run (decide id approve actorId note) db
      = .ok (r.update (decision approve actorId note),
          db.afterDecide r approve v.kind (decision approve actorId note)) := by
  refine (Tx.run_perform (s := .lockRequest id) rfl).trans ?_
  dsimp only [Stmt.apply]
  rw [hfind]
  dsimp only
  rw [if_neg (not_not.mpr hpending)]
  refine (Program.exec_bind_of_ok (run_frozenVersion r db)).trans ?_
  refine (Program.exec_bind_of_ok (run_snapshot r.account true db)).trans ?_
  rw [hv]
  refine (Program.exec_bind_of_ok (run_debitRequest hfloor (db.ensureSnapshot r.account))).trans ?_
  exact (Program.exec_bind_of_ok (run_releaseHold r v _ _)).trans rfl

/-- Everything a successful decision is. -/
theorem decide_cases {id : Uuid} {approve : Bool} {actorId : String} {note : Option String}
    {db db' : Db} {row : TimeOffRequest}
    (h : Tx.run (decide id approve actorId note) db = .ok (row, db')) :
    ∃ r v, db.requests.find? id = some r ∧ r.status = .PENDING ∧
      db.catalog.version r.policyVersionId = some v ∧
      (approve ∧ v.kind ≠ .UNLIMITED →
        v.floor ≤ (db.snapshotOf r.account).balanceMinutes
          - (db.snapshotOf r.account).pendingHoldMinutes) ∧
      db' = db.afterDecide r approve v.kind (decision approve actorId note) := by
  have h := (Tx.run_perform (s := .lockRequest id) rfl).symm.trans h
  dsimp only [Stmt.apply] at h
  cases hfind : db.requests.find? id with
  | none =>
    rw [hfind] at h
    cases h
  | some r =>
  rw [hfind] at h
  dsimp only at h
  split at h
  · cases h
  next hpending =>
  -- the version and the snapshot are read whether or not they are needed
  have h := (Program.exec_bind_of_ok (run_frozenVersion r db)).symm.trans h
  have h := (Program.exec_bind_of_ok (run_snapshot r.account true db)).symm.trans h
  cases hv : db.catalog.version r.policyVersionId with
  | none =>
    rw [hv] at h
    cases h
  | some v =>
  rw [hv] at h
  refine ⟨r, v, rfl, not_not.mp hpending, hv, ?_⟩
  obtain ⟨u, db₂, hdebit, hrest⟩ := Program.exec_bind_ok.mp h
  obtain ⟨hfloor, rfl⟩ := debitRequest_cases hdebit
  refine ⟨hfloor, ?_⟩
  unfold Db.afterDecide
  have hrest := (Program.exec_bind_of_ok (run_releaseHold r v _ _)).symm.trans hrest
  cases hrest
  rfl

/-! ## Cancelling -/

/-- What a cancellation gives back depends on the status it was given. -/
theorem run_giveBack (r : TimeOffRequest) (row : BalanceSnapshot) (db : Db) :
    Tx.run (giveBack r row) db
      = .ok ((), if r.status = .PENDING then db.release r row.pendingHoldMinutes
          else db.posts r.reversals) := by
  unfold giveBack
  split
  · rfl
  · exact run_postEach _ _

/-- Everything a successful cancellation is. -/
theorem cancel_cases {r : TimeOffRequest} {actorId : String} {today : Date} {db db' : Db}
    {row : TimeOffRequest} (h : Tx.run (cancel r actorId today) db = .ok (row, db')) :
    r.status.LIVE = true ∧ today < r.startDate ∧
      db' = db.afterCancel r (cancellation r.status actorId) := by
  unfold cancel at h
  split at h
  · cases h
  next hlive =>
  split at h
  · cases h
  next htoday =>
  refine ⟨not_not.mp hlive, not_le.mp htoday, ?_⟩
  have h := (Program.exec_bind_of_ok (run_snapshot r.account true db)).symm.trans h
  have h := (Program.exec_bind_of_ok (run_giveBack r _ _)).symm.trans h
  cases h
  rfl

end RequestService

/-! ## The routes run alone

The routes add checks on the actor, and the service's cases carry over. -/

namespace Api

/-- A route that goes through has passed its checks, and ran the service. -/
theorem submit_cases {dir : Directory} {actor : Employee} {id : Uuid} {reason : String}
    {fields : RequestFields} {db : Db} {x : TimeOffRequest × Db}
    (h : Tx.run (submit dir actor id reason fields) db = .ok x) :
    Tx.run (RequestService.submit dir id actor.id reason fields) db = .ok x := by
  obtain ⟨-, -, h⟩ := Tx.run_lift_ok.mp h
  exact h

/-- A request that is found is stored. -/
theorem findRequest_cases {id : Uuid} {companyId : String} {db db' : Db} {r : TimeOffRequest}
    (h : Tx.run (findRequest id companyId) db = .ok (r, db')) :
    db.requests.find? id = some r ∧ db' = db := by
  obtain ⟨found, hfound, h⟩ := Tx.run_query_ok.mp h
  cases found with
  | none => cases h
  | some row =>
    cases h
    exact ⟨(Option.filter_eq_some_iff.mp (Except.ok.inj hfound)).1, rfl⟩

theorem decide_cases {actor : Employee} {id : Uuid} {approve : Bool} {note : Option String}
    {db : Db} {x : TimeOffRequest × Db} (h : Tx.run (decide actor id approve note) db = .ok x) :
    Tx.run (RequestService.decide id approve actor.id note) db = .ok x := by
  obtain ⟨-, -, hroute⟩ := Tx.run_lift_ok.mp h
  obtain ⟨r, db₁, hr, hdecide⟩ := Program.exec_bind_ok.mp hroute
  obtain ⟨hfind, rfl⟩ := findRequest_cases hr
  obtain ⟨-, rfl⟩ := Table.find?_eq_some.mp hfind
  exact hdecide

theorem cancel_cases {dir : Directory} {actor : Employee} {id : Uuid} {today : Date} {db : Db}
    {x : TimeOffRequest × Db} (h : Tx.run (cancel dir actor id today) db = .ok x) :
    ∃ r, db.requests.find? id = some r ∧
      Tx.run (RequestService.cancel r actor.id today) db = .ok x := by
  obtain ⟨r, db₁, hr, hroute⟩ := Program.exec_bind_ok.mp h
  obtain ⟨hfind, rfl⟩ := findRequest_cases hr
  obtain ⟨-, -, hcancel⟩ := Tx.run_lift_ok.mp hroute
  exact ⟨r, hfind, hcancel⟩

end Api

end TimeOff
