import TimeOff.Books.Plain

/-!
# Snapshots are a cache

Run one at a time, the operations on the database do what the operations on its
books do, error for error (`books_refine`): the balance a snapshot caches is
never seen to differ from the sum of the ledger. So whatever is tried in turn,
the snapshot rows could be dropped (**`snapshots_transparent`**).

The proof is a refinement with `Db.books` as the abstraction: the books keep the
catalog, the ledger, the minutes held on each account, the requests and the job
runs, and forget the snapshot rows. What has to hold of the database is
`SnapshotsExact`, that every stored snapshot caches the sum of the ledger, and
`RequestsWellFormed`, so that a decision finds the version its request froze.
Both hold at the start and are kept by every operation.

Under them an operation and its counterpart agree in three steps:

- the parts of the database that an operation writes have the books one expects
  (`Db.books_afterSubmit`, `Db.books_afterDecide`, `Db.books_afterCancel`,
  `Db.books_postAccruals`, `Db.books_closeAccounts`);
- the programs read the same answers off the database as off its books, the
  balance check in particular (`RequestService.run_resolve`,
  `RequestService.run_checkBalance`), and fail with the same error where they
  fail;
- each operation is put together from these (`books_submit` and its siblings),
  one case for each in `books_run`.

The library lemmas about refinements then lift one operation to a whole list of
them, refused ones included.
-/

namespace TimeOff

open Gregorian

namespace Db

variable {db : Db} {a : Account} {r row : TimeOffRequest} {kind : PolicyKind} {approve : Bool}
  {u : RequestUpdate}

/-! ## The books of a state

Each function on databases is one on books, once snapshots are forgotten. -/

@[simp] theorem books_catalog (db : Db) : db.books.catalog = db.catalog := rfl

@[simp] theorem books_requests (db : Db) : db.books.requests = db.requests := rfl

/-- Posting entries one by one enters them into the ledger. -/
theorem posts_ledger (es : List LedgerEntry) (db : Db) :
    (db.posts es).ledger = Table.insertAll db.ledger es := by
  induction es generalizing db with
  | nil => rfl
  | cons e es ih => rw [posts_cons, ih, post_ledger, Table.insertAll_cons]

/-- On the books, posting is entering: the snapshot rows it refreshes are gone. -/
theorem books_posts (es : List LedgerEntry) (db : Db) :
    (db.posts es).books = db.books.post es :=
  Books.ext (posts_catalog es) (posts_ledger es db) (funext fun _ => hold_posts) (posts_requests es)
    (posts_jobRuns es)

/-- A snapshot row that is created lazily caches what the books say anyway. -/
theorem books_ensureSnapshot (a : Account) (db : Db) : (db.ensureSnapshot a).books = db.books :=
  Books.ext rfl rfl (funext fun _ => hold_ensureSnapshot) rfl rfl

theorem books_setRequest (id : Uuid) (u : RequestUpdate) (db : Db) :
    (Stmt.setRequest db id u).books = db.books.update id u := rfl

/-- A snapshot keeps the hold of its account, and the books keep it too. -/
theorem books_setHold (h : db.snapshots.Has a) (minutes : Int) :
    (Stmt.setHold db a (db.hold a + minutes)).books = db.books.addHold a minutes := by
  refine Books.ext rfl rfl (funext fun b => ?_) rfl rfl
  show (Stmt.setHold db a (db.hold a + minutes)).hold b
    = Function.update db.hold a (db.hold a + minutes) b
  by_cases hb : b = a
  · subst hb
    rw [hold_setHold_self h, Function.update_self]
  · rw [hold_setHold_of_ne hb, Function.update_of_ne hb]

/-- Releasing what a request holds takes its minutes off the hold. -/
theorem books_release (h : db.snapshots.Has r.account) :
    (db.release r (db.hold r.account)).books = db.books.addHold r.account (-r.totalMinutes) :=
  books_setHold h (-r.totalMinutes)

/-- A submission stores the row and holds its minutes if the version keeps
balances. -/
theorem books_afterSubmit (row : TimeOffRequest) (kind : PolicyKind) (db : Db) :
    (db.afterSubmit row kind).books
      = if kind ≠ .UNLIMITED then
          Books.addHold { db.books with requests := db.requests.insertNew row } row.account
            row.totalMinutes
        else { db.books with requests := db.requests.insertNew row } := by
  let stored : Db := { db.ensureSnapshot row.account with requests := db.requests.insertNew row }
  have hstored : stored.books = { db.books with requests := db.requests.insertNew row } :=
    Books.ext rfl rfl (funext fun _ => hold_ensureSnapshot) rfl rfl
  unfold afterSubmit
  dsimp only
  split
  · have hhold : db.hold row.account = stored.hold row.account := hold_ensureSnapshot.symm
    have hhas : stored.snapshots.Has row.account :=
      RequestService.has_ensureSnapshot row.account db
    rw [← hstored, snapshotOf_hold, hhold]
    exact books_setHold hhas row.totalMinutes
  · exact hstored

/-- A decision settles the request on the books, then updates its row. -/
theorem books_afterDecide {v : PolicyVersion} (hv : db.catalog.version r.policyVersionId = some v)
    (approve : Bool) (u : RequestUpdate) :
    (db.afterDecide r approve v.kind u).books = (db.books.settle r approve).update r.id u := by
  unfold afterDecide
  dsimp only
  rw [books_setRequest]
  refine congrArg (Books.update · r.id u) ?_
  have hkeeps : db.books.catalog.Keeps r ↔ v.kind ≠ .UNLIMITED := Catalog.keeps_iff hv
  have hdebited : ((db.ensureSnapshot r.account).afterDebits r approve v.kind).books
      = if approve ∧ v.kind ≠ .UNLIMITED then db.books.post r.debits else db.books := by
    unfold afterDebits
    split
    · rw [books_posts, books_ensureSnapshot]
    · exact books_ensureSnapshot r.account db
  have hhas : ((db.ensureSnapshot r.account).afterDebits r approve v.kind).snapshots.Has
      r.account := has_afterDebits (RequestService.has_ensureSnapshot r.account db)
  have hhold : ((db.ensureSnapshot r.account).afterDebits r approve v.kind).hold r.account
      = db.hold r.account := hold_afterDebits.trans hold_ensureSnapshot
  simp only [Books.settle]
  by_cases hkind : v.kind = .UNLIMITED
  · rw [if_neg (not_not.mpr hkind), if_neg fun h => hkeeps.mp h hkind, hdebited,
      if_neg fun h => h.2 hkind]
  · rw [if_pos hkind, if_pos (hkeeps.mpr hkind), snapshotOf_hold, ← hhold, books_release hhas,
      hdebited]
    cases approve <;> simp [hkind]

/-- A cancellation gives back on the books what the request holds or was debited. -/
theorem books_afterCancel (r : TimeOffRequest) (u : RequestUpdate) (db : Db) :
    (db.afterCancel r u).books = (db.books.giveBack r).update r.id u := by
  unfold afterCancel
  dsimp only
  rw [books_setRequest]
  refine congrArg (Books.update · r.id u) ?_
  unfold Books.giveBack
  split
  · rw [snapshotOf_hold, ← hold_ensureSnapshot (a := r.account),
      books_release (RequestService.has_ensureSnapshot r.account db), books_ensureSnapshot]
  · rw [books_posts, books_ensureSnapshot]

/-- A capped credit is one on the ledger alone: its loss is computed from the
sum of the ledger, not from the snapshot. -/
theorem books_postAccrual (p : Posting) (db : Db) :
    (db.postAccrual p).books = { db.books with ledger := db.ledger.accrue p } := by
  rw [postAccrual_eq_posts, books_posts]
  rfl

theorem books_postAccruals (ps : List Posting) (db : Db) :
    (db.postAccruals ps).books = { db.books with ledger := ps.foldl Ledger.accrue db.ledger } := by
  induction ps generalizing db with
  | nil => rfl
  | cons p ps ih =>
    have hledger : (db.postAccrual p).ledger = db.ledger.accrue p :=
      congrArg Books.ledger (books_postAccrual p db)
    rw [postAccruals_cons, ih, books_postAccrual, hledger]
    rfl

/-- And so is the closing of an account. -/
theorem books_closeAccount (companyId : String) (periodEnd : Date) (assignment : PolicyAssignment)
    (db : Db) :
    (db.closeAccount companyId periodEnd assignment).books
      = { db.books with
          ledger := db.ledger.close db.catalog companyId periodEnd assignment } := by
  simp only [closeAccount, Ledger.close]
  cases db.catalog.versionEffectiveOn assignment.policyId periodEnd with
  | none => rfl
  | some version =>
    dsimp only
    split
    · rfl
    · exact books_posts _ db

theorem books_closeAccounts (companyId : String) (periodEnd : Date)
    (assignments : List PolicyAssignment) (db : Db) :
    (db.closeAccounts companyId periodEnd assignments).books
      = { db.books with
          ledger := assignments.foldl (Ledger.close db.catalog companyId periodEnd)
            db.ledger } := by
  induction assignments generalizing db with
  | nil => rfl
  | cons x xs ih =>
    have hledger : (db.closeAccount companyId periodEnd x).ledger
        = db.ledger.close db.catalog companyId periodEnd x :=
      congrArg Books.ledger (books_closeAccount companyId periodEnd x db)
    rw [closeAccounts_cons, ih, books_closeAccount, hledger, closeAccount_catalog]
    rfl

end Db

/-! ## Requests

The programs of the requests, run alone, are the checks of the books in the same
order, where the snapshots are exact. -/

namespace Tx

/-- A check without a database access comes out of the transaction. -/
theorem run_lift_bind {α β : Type} (x : Except Error α) (f : α → Tx β) (db : Db) :
    run (lift x >>= f) db = x >>= fun a => run (f a) db := by
  cases x <;> rfl

/-- And so does what a query answers. -/
theorem run_query_bind {α : Type} (q : Query) (f : q.Answer → Tx α) (db : Db) :
    run (query q >>= f) db = q.run db >>= fun answer => run (f answer) db := by
  cases h : q.run db with
  | ok answer => exact run_query h
  | error e => exact run_perform_error (s := .select q) h

/-- A part that only reads. -/
theorem run_read_bind {α β : Type} {p : Tx α} {x : Except Error α} {db : Db}
    (h : run p db = x.map fun a => (a, db)) (f : α → Tx β) :
    run (p >>= f) db = x >>= fun a => run (f a) db := by
  cases x with
  | ok a => exact Program.exec_bind_of_ok h
  | error e => exact Program.exec_bind_of_error h

end Tx

namespace RequestService

variable {db : Db}

/-- Resolving a request reads the catalog and the other requests, and no snapshot. -/
theorem run_resolve (dir : Directory) (fields : RequestFields) (db : Db) :
    Tx.run (resolve dir fields) db = (db.books.resolve dir fields).map fun r => (r, db) := by
  unfold resolve Books.resolve
  rw [Db.books_catalog, Db.books_requests]
  -- one lookup after the other, the same on both sides
  refine (Tx.run_lift_bind _ _ db).trans ?_
  cases dir.employee fields.employeeId with
  | error e => rfl
  | ok employee =>
  refine (Tx.run_query_bind _ _ db).trans ?_
  show (db.catalog.assignmentForCategory employee.companyId fields.employeeId fields.categoryId
    fields.startDate >>= _) = Except.map _ (db.catalog.assignmentForCategory employee.companyId
      fields.employeeId fields.categoryId fields.startDate >>= _)
  cases db.catalog.assignmentForCategory employee.companyId fields.employeeId fields.categoryId
      fields.startDate with
  | error e => rfl
  | ok found =>
  dsimp only [bind, Except.bind]
  cases found.filter fun a => ¬ ∃ last ∈ a.effectiveTo, last < fields.endDate with
  | none => rfl
  | some assignment =>
  refine (Tx.run_query rfl).trans ?_
  dsimp only
  cases db.catalog.versionEffectiveOn assignment.policyId fields.startDate with
  | none => rfl
  | some version =>
  refine (Tx.run_query rfl).trans ((Tx.run_lift_bind _ _ db).trans ?_)
  dsimp only
  cases requestDays fields.startDate fields.endDate fields.partialMinutes
      employee.workMinutesPerDay employee.workDays
      (db.catalog.holidayDates assignment.companyId fields.startDate fields.endDate) with
  | error e => rfl
  | ok days =>
  -- the code asks for the first live request in the way, the books whether there is one
  have hoverlap : ((db.requests.rows.find? fun r => r.employeeId = fields.employeeId ∧
      r.status.LIVE ∧ r.Overlaps fields.startDate fields.endDate).map (·.id)).isSome = true ↔
      ∃ r ∈ db.requests.rows, r.employeeId = fields.employeeId ∧ r.status.LIVE ∧
        r.Overlaps fields.startDate fields.endDate := by
    rw [Option.isSome_map, List.find?_isSome]
    simp only [decide_eq_true_eq]
  refine (Tx.run_query rfl).trans ?_
  dsimp only
  by_cases h : ∃ r ∈ db.requests.rows, r.employeeId = fields.employeeId ∧ r.status.LIVE ∧
      r.Overlaps fields.startDate fields.endDate
  · rw [if_pos h, if_pos (hoverlap.mpr h)]
    rfl
  · rw [if_neg h, if_neg fun hsome => h (hoverlap.mp hsome)]
    rfl

/-- Both a locking read of the snapshot and a plain one see the balance of the
ledger. -/
theorem run_checkBalance {employeeId : String} {r : Resolved} (lockBalance : Bool)
    (hexact : SnapshotExact (r.account employeeId) db) :
    Tx.run (checkBalance employeeId lockBalance r) db
      = (db.books.fits employeeId r).map fun _ =>
          ({ r with
              availableMinutes := db.books.available (r.account employeeId)
              snapshot := db.snapshotOf (r.account employeeId) },
            db.ensureSnapshot (r.account employeeId)) := by
  unfold checkBalance Books.fits
  refine (Program.exec_bind_of_ok (run_snapshot (r.account employeeId) lockBalance db)).trans ?_
  have havailable : (db.snapshotOf (r.account employeeId)).balanceMinutes
      - (db.snapshotOf (r.account employeeId)).pendingHoldMinutes
      = db.books.available (r.account employeeId) := hexact.available
  dsimp only
  rw [havailable]
  by_cases h : r.version.kind ≠ .UNLIMITED ∧
      db.books.available (r.account employeeId) - r.totalMinutes < r.version.floor
  · rw [if_pos h, if_pos h]
    rfl
  · rw [if_neg h, if_neg h]
    rfl

/-- A stored id is refused by its primary key, in the same place on both sides. -/
theorem run_insertRequest_bind (row : TimeOffRequest) (f : Unit → Tx TimeOffRequest) (db : Db) :
    Tx.run (Program.perform (Stmt.insertRequest row) >>= f) db
      = if db.requests.Has row.id then .error .integrity
        else Tx.run (f ()) { db with requests := db.requests.insertNew row } := by
  split
  · next h => exact Tx.run_perform_error (s := .insertRequest row) (if_pos h)
  · next h => exact Tx.run_perform (s := .insertRequest row) (if_neg h)

/-- A submission passes the balance check on the books, is stored and holds its
minutes. -/
theorem run_charge {id : Uuid} {actorId reason : String} {fields : RequestFields} {r : Resolved}
    (hexact : SnapshotExact (r.account fields.employeeId) db) :
    Tx.run (charge id actorId reason fields r) db
      = db.books.fits fields.employeeId r >>= fun _ =>
          if db.requests.Has id then .error .integrity
          else .ok (newRequest id actorId reason fields r,
            db.afterSubmit (newRequest id actorId reason fields r) r.version.kind) := by
  have hcheck := run_checkBalance true hexact
  unfold charge
  cases hfits : db.books.fits fields.employeeId r with
  | error e =>
    rw [hfits] at hcheck
    exact Program.exec_bind_of_error hcheck
  | ok u =>
  rw [hfits] at hcheck
  refine (Program.exec_bind_of_ok hcheck).trans ?_
  let row := newRequest id actorId reason fields r
  show Tx.run (store row r.version (db.snapshotOf row.account)) (db.ensureSnapshot row.account)
    = if db.requests.Has row.id then .error .integrity
      else .ok (row, db.afterSubmit row r.version.kind)
  unfold store Db.afterSubmit
  by_cases hkind : r.version.kind ≠ .UNLIMITED
  · rw [if_pos hkind, if_pos hkind]
    refine (Program.exec_bind_of_ok
      (run_snapshot_again (has_ensureSnapshot row.account db) _)).trans ?_
    exact run_insertRequest_bind row _ _
  · rw [if_neg hkind, if_neg hkind]
    exact run_insertRequest_bind row _ _

/-- A decision, once the request is found. -/
theorem run_decide_found {id : Uuid} {approve : Bool} {actorId : String} {note : Option String}
    {r : TimeOffRequest} {v : PolicyVersion} (hfind : db.requests.find? id = some r)
    (hv : db.catalog.version r.policyVersionId = some v) (hexact : SnapshotExact r.account db) :
    Tx.run (decide id approve actorId note) db
      = if r.status ≠ .PENDING then .error (.request "Only a pending request can be decided.")
        else if approve ∧ db.books.catalog.Keeps r ∧
            db.books.available r.account < db.books.floorOf r then
          .error (.request "The balance changed and can no longer cover this request.")
        else .ok (r.update (decision approve actorId note),
          db.afterDecide r approve v.kind (decision approve actorId note)) := by
  have hkeeps : db.books.catalog.Keeps r ↔ v.kind ≠ .UNLIMITED := Catalog.keeps_iff hv
  have hfloor : db.books.floorOf r = v.floor := by
    unfold Books.floorOf
    rw [Db.books_catalog, hv]
    rfl
  have havailable : (db.snapshotOf r.account).balanceMinutes
      - (db.snapshotOf r.account).pendingHoldMinutes = db.books.available r.account :=
    hexact.available
  by_cases hpending : r.status = .PENDING
  · rw [if_neg (not_not.mpr hpending), hfloor]
    by_cases hlow : approve ∧ db.books.catalog.Keeps r ∧ db.books.available r.account < v.floor
    · -- an approval that finds too little is refused behind the two locks
      rw [if_pos hlow]
      refine (Tx.run_perform (s := .lockRequest id) rfl).trans ?_
      dsimp only [Stmt.apply]
      rw [hfind]
      dsimp only
      rw [if_neg (not_not.mpr hpending)]
      refine (Program.exec_bind_of_ok (run_frozenVersion r db)).trans ?_
      refine (Program.exec_bind_of_ok (run_snapshot r.account true db)).trans ?_
      rw [hv]
      refine Program.exec_bind_of_error ?_
      unfold debitRequest
      rw [if_pos ⟨hlow.1, hkeeps.mp hlow.2.1⟩, if_pos (havailable ▸ hlow.2.2)]
      rfl
    · rw [if_neg hlow]
      refine run_decide hfind hpending hv fun h => ?_
      rw [havailable]
      exact not_lt.mp fun hlt => hlow ⟨h.1, hkeeps.mpr h.2, hlt⟩
  · rw [if_pos hpending]
    refine (Tx.run_perform (s := .lockRequest id) rfl).trans ?_
    dsimp only [Stmt.apply]
    rw [hfind]
    dsimp only
    rw [if_pos hpending]
    rfl

/-- A cancellation, once the request is found: it looks at no balance. -/
theorem run_cancel_found (r : TimeOffRequest) (actorId : String) (today : Date) (db : Db) :
    Tx.run (cancel r actorId today) db
      = if ¬ r.status.LIVE then
          .error (.request "Only a pending or approved request can be cancelled.")
        else if r.startDate ≤ today then
          .error (.request "Leave that has started requires an admin correction.")
        else .ok (r.update (cancellation r.status actorId),
          db.afterCancel r (cancellation r.status actorId)) := by
  unfold cancel
  split
  · rfl
  · split
    · rfl
    · refine (Program.exec_bind_of_ok (run_snapshot r.account true db)).trans ?_
      exact Program.exec_bind_of_ok (run_giveBack r _ _)

end RequestService

namespace Api

variable {db : Db}

/-- A submission is a check of the actor, a resolution and a charge. -/
theorem run_submit {dir : Directory} {actor : Employee} {id : Uuid} {reason : String}
    {fields : RequestFields} (hexact : SnapshotsExact db) :
    Tx.run (submit dir actor id reason fields) db
      = requireSelfOrAdmin dir fields.employeeId actor >>= fun _ =>
          db.books.resolve dir fields >>= fun r =>
            db.books.fits fields.employeeId r >>= fun _ =>
              if db.requests.Has id then .error .integrity
              else .ok (RequestService.newRequest id actor.id reason fields r,
                db.afterSubmit (RequestService.newRequest id actor.id reason fields r)
                  r.version.kind) := by
  unfold submit RequestService.submit
  refine (Tx.run_lift_bind _ _ db).trans (bind_congr fun _ => ?_)
  refine (Tx.run_read_bind (RequestService.run_resolve dir fields db) _).trans
    (bind_congr fun r => ?_)
  exact RequestService.run_charge (snapshotsExact_iff.mp hexact _)

/-- A request is looked up by its id, within the company of the actor. -/
theorem run_findRequest (id : Uuid) (companyId : String) (db : Db) :
    Tx.run (findRequest id companyId) db
      = (db.books.findRequest id companyId).map fun r => (r, db) := by
  refine (Tx.run_query (q := .request id companyId) rfl).trans ?_
  unfold Books.findRequest
  rw [Db.books_requests]
  cases (db.requests.find? id).filter fun r => r.companyId = companyId <;> rfl

theorem find?_of_findRequest {id : Uuid} {companyId : String} {r : TimeOffRequest}
    (h : db.books.findRequest id companyId = .ok r) : db.requests.find? id = some r := by
  unfold Books.findRequest at h
  split at h
  · next hfind =>
    cases h
    exact (Option.filter_eq_some_iff.mp hfind).1
  · cases h

end Api

/-! ## Operations

One step of the database is one of the books, refusals and their errors
included; so are runs. -/

/-- The operations of the requests, one by one. -/
theorem books_submit {dir : Directory} {db : Db} (hexact : SnapshotsExact db) (actor : Employee)
    (id : Uuid) (reason : String) (fields : RequestFields) :
    ((Op.submit actor id reason fields).run dir db).map Db.books
      = db.books.submit dir actor id reason fields := by
  show ((Tx.run (Api.submit dir actor id reason fields) db).map Prod.snd).map Db.books = _
  rw [Api.run_submit hexact]
  unfold Books.submit
  cases Api.requireSelfOrAdmin dir fields.employeeId actor with
  | error e => rfl
  | ok u =>
  dsimp only [bind, Except.bind]
  cases db.books.resolve dir fields with
  | error e => rfl
  | ok r =>
  dsimp only
  cases db.books.fits fields.employeeId r with
  | error e => rfl
  | ok u =>
  dsimp only
  rw [Db.books_requests]
  split
  · rfl
  · exact congrArg Except.ok (Db.books_afterSubmit _ r.version.kind db)

theorem books_decide {dir : Directory} {db : Db} (hexact : SnapshotsExact db)
    (hwf : RequestsWellFormed db) (actor : Employee) (id : Uuid) (approve : Bool)
    (note : Option String) :
    ((Op.decide actor id approve note).run dir db).map Db.books
      = db.books.decide actor id approve note := by
  unfold Books.decide
  show ((Tx.run (Tx.lift (Api.requireAdmin actor) >>= fun _ =>
    Api.findRequest id actor.companyId >>= fun row =>
      RequestService.decide row.id approve actor.id note) db).map Prod.snd).map Db.books = _
  rw [Tx.run_lift_bind]
  cases Api.requireAdmin actor with
  | error e => rfl
  | ok u =>
  show ((Tx.run (Api.findRequest id actor.companyId >>= fun row =>
      RequestService.decide row.id approve actor.id note) db).map Prod.snd).map Db.books
    = (db.books.findRequest id actor.companyId >>= _)
  rw [Tx.run_read_bind (Api.run_findRequest id actor.companyId db)]
  cases hr : db.books.findRequest id actor.companyId with
  | error e => rfl
  | ok r =>
  have hfind := Api.find?_of_findRequest hr
  obtain ⟨hmem, rfl⟩ := Table.find?_eq_some.mp hfind
  obtain ⟨v, hv, -⟩ := (hwf r hmem).version
  show ((Tx.run (RequestService.decide r.id approve actor.id note) db).map Prod.snd).map Db.books
    = _
  rw [RequestService.run_decide_found hfind hv (snapshotsExact_iff.mp hexact _)]
  dsimp only [bind, Except.bind]
  split
  · rfl
  · split
    · rfl
    · exact congrArg Except.ok (Db.books_afterDecide hv approve _)

theorem books_cancel {dir : Directory} {db : Db} (actor : Employee) (id : Uuid) (today : Date) :
    ((Op.cancel actor id today).run dir db).map Db.books
      = db.books.cancel dir actor id today := by
  unfold Books.cancel
  show ((Tx.run (Api.findRequest id actor.companyId >>= fun row =>
    Tx.lift (Api.requireSelfOrAdmin dir row.employeeId actor) >>= fun _ =>
      RequestService.cancel row actor.id today) db).map Prod.snd).map Db.books = _
  rw [Tx.run_read_bind (Api.run_findRequest id actor.companyId db)]
  cases hr : db.books.findRequest id actor.companyId with
  | error e => rfl
  | ok r =>
  obtain ⟨-, rfl⟩ := Table.find?_eq_some.mp (Api.find?_of_findRequest hr)
  show ((Tx.run (Tx.lift (Api.requireSelfOrAdmin dir r.employeeId actor) >>= fun _ =>
    RequestService.cancel r actor.id today) db).map Prod.snd).map Db.books
    = (Api.requireSelfOrAdmin dir r.employeeId actor >>= _)
  rw [Tx.run_lift_bind]
  cases Api.requireSelfOrAdmin dir r.employeeId actor with
  | error e => rfl
  | ok u =>
  show ((Tx.run (RequestService.cancel r actor.id today) db).map Prod.snd).map Db.books = _
  rw [RequestService.run_cancel_found]
  dsimp only [bind, Except.bind]
  split
  · rfl
  · split
    · rfl
    · exact congrArg Except.ok (Db.books_afterCancel r _ db)

/-- The audit row of a job counts the entries that the job added to the ledger. -/
theorem books_recordRun {db db' : Db} {companyId sourceId : String} {kind : JobKind}
    {ledger : Ledger} (h : db'.books = { db.books with ledger := ledger }) :
    (db'.recordRun ⟨companyId, kind, sourceId, "SUCCESS", db.entriesAdded db'⟩).books
      = db.books.runJob companyId kind sourceId ledger := by
  have hledger : db'.ledger = ledger := congrArg Books.ledger h
  have hruns : db'.jobRuns = db.jobRuns := congrArg Books.jobRuns h
  have hcatalog : db'.catalog = db.catalog := congrArg Books.catalog h
  have hhold : db'.hold = db.hold := congrArg Books.hold h
  have hrequests : db'.requests = db.requests := congrArg Books.requests h
  subst hledger
  refine Books.ext hcatalog rfl hhold hrequests ?_
  show db'.jobRuns ++ _ = db.jobRuns ++ _
  rw [hruns]
  rfl

/-- An accrual job posts its plan; where it has none, both sides fail alike. -/
theorem books_jobResult {db : Db} {companyId sourceId : String} {kind : JobKind}
    (plan : Except Error (List Posting)) :
    ((AccrualService.jobResult companyId kind sourceId plan db).map Prod.snd).map Db.books
      = plan >>= fun ps =>
          .ok (db.books.runJob companyId kind sourceId (ps.foldl Ledger.accrue db.ledger)) := by
  cases plan with
  | error e => rfl
  | ok ps => exact congrArg Except.ok (books_recordRun (Db.books_postAccruals ps db))

/-- An operation on a database whose snapshots are exact is the operation on its
books, with the same error if it fails. -/
theorem books_run {dir : Directory} {db : Db} (op : Op) (hexact : SnapshotsExact db)
    (hwf : RequestsWellFormed db) : (op.run dir db).map Db.books = db.books.run dir op := by
  cases op with
  | catalog op =>
    show ((op.run dir db.catalog).map _).map Db.books = (op.run dir db.catalog).map _
    cases op.run dir db.catalog <;> rfl
  | submit actor id reason fields => exact books_submit hexact actor id reason fields
  | decide actor id approve note => exact books_decide hexact hwf actor id approve note
  | cancel actor id today => exact books_cancel actor id today
  | runScheduled companyId asOf =>
    show ((Tx.run (AccrualService.runScheduled dir companyId asOf) db).map Prod.snd).map Db.books
      = _
    rw [AccrualService.run_runScheduled]
    exact books_jobResult _
  | onPayrollProcessed companyId payrollRunId periodEnd minutesByEmployee =>
    show ((Tx.run (AccrualService.onPayrollProcessed dir companyId payrollRunId periodEnd
      minutesByEmployee) db).map Prod.snd).map Db.books = _
    rw [AccrualService.run_onPayrollProcessed]
    exact books_jobResult _
  | rollover companyId asOf =>
    show ((Tx.run (RolloverService.run companyId asOf) db).map Prod.snd).map Db.books = _
    rw [RolloverService.run_run]
    dsimp only
    rw [Int.zero_add]
    exact congrArg Except.ok (books_recordRun (Db.books_closeAccounts ..))

/-- The operations on the database refine those on its books. -/
theorem books_refine (dir : Directory) :
    Refines (Op.run dir) (Books.run dir) Db.books fun db =>
      SnapshotsExact db ∧ RequestsWellFormed db where
  keeps := fun ⟨hexact, hwf⟩ hrun =>
    ⟨(effect_of_step hrun).onRequests.snapshotsExact hexact,
      (effect_of_step hrun).requestsWellFormed hwf⟩
  commutes op h := books_run op h.1 h.2

/-- **Snapshots are a cache**: whatever operations are tried in turn, the same
ones are refused, with the same errors, as on books without snapshot rows where
every balance is the sum of the ledger, and the books are the same at the end. -/
theorem snapshots_transparent (dir : Directory) (ops : List Op) :
    outcomes (Op.run dir) ops .empty = outcomes (Books.run dir) ops Db.empty.books ∧
      (ops.foldl (Op.tried dir) .empty).books
        = ops.foldl (attempt (Books.run dir)) Db.empty.books := by
  have hrefines := books_refine dir
  have hempty : SnapshotsExact .empty ∧ RequestsWellFormed .empty :=
    ⟨snapshotsExact_empty, requestsWellFormed_empty⟩
  rw [tried_eq_attempt]
  exact ⟨hrefines.outcomes_eq ops hempty, hrefines.attempts_eq ops hempty⟩

end TimeOff
