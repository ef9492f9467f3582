import TimeOff.Lib.Sessions
import TimeOff.Requests.Lifecycle

/-!
# Request routes side by side

A `Route` is a call of the request API with its arguments; any number of them
run interleaved. Two things are shared by all that is said about that:

- a request or snapshot only changes under its lock (`sameRow_protects`), so
  what a transaction saw of it when it locked it is still there when it commits;
- the log of a route that is about to commit has its few statements that matter
  in known places (`submit_traces`, `decide_traces`, `cancel_traces`).

The first is about statements: each names the lock it needs, if any, and one
that did not need the lock of a row leaves the row of every database as it was.
It makes the locks of the library (`Interleaving.Protects`) locks on rows of
this database, and the ledger a thing that only grows (`ledger_grows`).

The second is about programs. `Traces` relates a program to the logs it can have
written when it returns, statement by statement with the view that each was
answered in; `traces_perform`, `traces_query` and `traces_lift` take such a log
apart along the program. `Program.Within` is the weaker property that all
statements are of some kind, which is enough for the parts of a route in
between.
-/

namespace TimeOff

open Gregorian

/-- A call of the request API. -/
inductive Route
  | submit (actor : Employee) (id : Uuid) (reason : String) (fields : RequestFields)
  | decide (actor : Employee) (requestId : Uuid) (approve : Bool) (note : Option String)
  | cancel (actor : Employee) (requestId : Uuid) (today : Date)

/-- The transaction of a call. -/
def Route.program (dir : Directory) : Route → Tx TimeOffRequest
  | .submit actor id reason fields => Api.submit dir actor id reason fields
  | .decide actor requestId approve note => Api.decide actor requestId approve note
  | .cancel actor requestId today => Api.cancel dir actor requestId today

/-- A transaction of the application under way. -/
abbrev TxSession (α : Type) := Session Stmt Stmt.Answer Db Error α

/-- Transactions of the application side by side. -/
abbrev TxConfig (α ι : Type) := Config Stmt Stmt.Answer Db Lock Error α ι

/-! ## What locks are for

What is locked does not change by the commit of another transaction: the row of
a request, the snapshot of an account. And the ledger only grows. -/

/-- The request or snapshot of a lock is the same in both databases. -/
def SameRow : Lock → Db → Db → Prop
  | .request id, db, db' => db.requests.find? id = db'.requests.find? id
  | .snapshot account, db, db' => db.snapshots.find? account = db'.snapshots.find? account
  | .entry _, _, _ => True

namespace Stmt

variable {id : Uuid} {a : Account} {st : Stmt} {v : Db} {r : st.Answer}

/-- What answered without the lock of a request changes the row of no database. -/
theorem find?_requests_apply (hr : st.answer v = .ok r) (h : st.needs v ≠ some (.request id))
    (db : Db) : (st.apply db).requests.find? id = db.requests.find? id := by
  cases st with
  | insertRequest row =>
    by_cases hhas : v.requests.Has row.id
    · cases (if_pos hhas).symm.trans hr
    · have hne : id ≠ row.id := by
        rintro rfl
        exact h (if_neg hhas)
      exact Table.find?_insertNew_of_ne hne
  | updateRequest id' u =>
    have hne : id ≠ id' := by
      rintro rfl
      exact h rfl
    show (db.requests.modify id' (TimeOffRequest.update u) fun _ => rfl).find? id = _
    exact Table.find?_modify_of_ne hne
  | _ => rfl

/-- And what answered without the lock of a snapshot changes its row in none. -/
theorem find?_snapshots_apply (hr : st.answer v = .ok r) (h : st.needs v ≠ some (.snapshot a))
    (db : Db) : (st.apply db).snapshots.find? a = db.snapshots.find? a := by
  cases st with
  | upsertSnapshot account n =>
    have hne : a ≠ account := by
      rintro rfl
      exact h rfl
    exact Db.find?_upsertBalance_of_ne db n hne
  | insertSnapshot row =>
    by_cases hhas : v.snapshots.Has row.account
    · cases (if_pos hhas).symm.trans hr
    · have hne : a ≠ row.account := by
        rintro rfl
        exact h (if_neg hhas)
      exact Table.find?_insertNew_of_ne hne
  | updateSnapshotHold account n =>
    have hne : a ≠ account := by
      rintro rfl
      exact h rfl
    exact Db.find?_setHold_of_ne db n hne
  | _ => rfl

end Stmt

/-- A request and a snapshot only change under their locks. -/
theorem sameRow_protects : Protects database SameRow where
  refl l db := by
    cases l with
    | entry k => trivial
    | _ => rfl
  trans {l d e f} h h' := by
    cases l with
    | entry k => trivial
    | _ => exact Eq.trans h h'
  keeps {l st v r} d hr hneeds := by
    cases l with
    | request id => exact (Stmt.find?_requests_apply hr hneeds d).symm
    | snapshot a => exact (Stmt.find?_snapshots_apply hr hneeds d).symm
    | entry k => trivial

/-- The ledger has all the sources it had. -/
def LedgerGrows (db db' : Db) : Prop := ∀ k, Table.Has db.ledger k → Table.Has db'.ledger k

/-- The sources after a statement are those before and what it inserts. -/
theorem Stmt.has_ledger_apply {st : Stmt} {db : Db} {k : SourceKey} :
    Table.Has (st.apply db).ledger k ↔
      Table.Has db.ledger k ∨ ∃ e, st = .insertLedgerEntry e ∧ e.key = k := by
  cases st with
  | insertLedgerEntry e =>
    show Table.Has (Table.insertNew db.ledger e) k ↔ _
    rw [Table.has_insertNew]
    simp [eq_comm]
  | _ => simp [Stmt.apply, Stmt.upsertBalance, Stmt.setHold, Stmt.setRequest]

/-- No statement takes an entry out of the ledger. -/
theorem ledger_grows : Grows database LedgerGrows where
  refl _ _ h := h
  trans h h' k hk := h' k (h k hk)
  mono _ _ _ h k hk := Stmt.has_ledger_apply.mpr ((Stmt.has_ledger_apply.mp hk).imp_left (h k))
  apply _ _ _ hk := Stmt.has_ledger_apply.mpr (Or.inl hk)

/-! ## Logs of transactions

The log of a transaction that ends, taken apart along its program: each
statement with the state it ran on. -/

namespace Tx

variable {α β : Type} {log : List (Stmt × Db)} {P : Stmt → Prop}

/-- The log of a statement and what follows. -/
theorem traces_perform {s : Stmt} {f : s.Answer → Tx α} {a : α} :
    (Program.perform s >>= f).Traces database log a ↔
      ∃ v r rest, log = (s, v) :: rest ∧ s.answer v = .ok r ∧ (f r).Traces database rest a :=
  Program.traces_call

theorem traces_query {q : Query} {f : q.Answer → Tx α} {a : α} :
    (query q >>= f).Traces database log a ↔
      ∃ v r rest, log = (.select q, v) :: rest ∧ q.run v = .ok r ∧
        (f r).Traces database rest a :=
  traces_perform (s := Stmt.select q)

/-- A check leaves no log. -/
theorem traces_lift {x : Except Error β} {f : β → Tx α} {a : α} :
    (lift x >>= f).Traces database log a ↔ ∃ b, x = .ok b ∧ (f b).Traces database log a := by
  cases x with
  | ok b =>
    constructor
    · intro h
      exact ⟨b, rfl, h⟩
    · rintro ⟨_, ⟨⟩, h⟩
      exact h
  | error e =>
    constructor
    · intro h
      exact absurd h Program.not_traces_raise
    · rintro ⟨_, ⟨⟩, _⟩

/-- A program of one statement is of the kind of the statement. -/
theorem within_perform {st : Stmt} (h : P st) :
    Program.Within P (Program.perform st : Tx st.Answer) := ⟨h, fun _ => trivial⟩

theorem within_query {q : Query} (h : P (.select q)) : (query q).Within P := ⟨h, fun _ => trivial⟩

theorem within_lift {x : Except Error α} : (lift x).Within P := by
  cases x <;> trivial

end Tx

/-- A plain read only reads. -/
theorem reads_select (q : Query) : database.Reads (.select q) := fun _ => ⟨rfl, rfl⟩

namespace LedgerService

variable {P : Stmt → Prop}

/-- All that posting issues. -/
theorem within_postEach (hinsert : ∀ e, P (.insertLedgerEntry e)) (hselect : ∀ q, P (.select q))
    (hupsert : ∀ a n, P (.upsertSnapshot a n)) (es : List LedgerEntry) :
    (postEach es).Within P := by
  have hpost : ∀ e, (post e).Within P := by
    intro e
    refine (Tx.within_perform (hinsert e)).bind fun entryId => ?_
    cases entryId with
    | false => trivial
    | true =>
      have hrefresh : (refreshSnapshot e.account).Within P :=
        (Tx.within_query (hselect _)).bind fun total =>
          (Tx.within_perform (hupsert _ _)).bind fun _ => trivial
      exact hrefresh.bind fun _ => trivial
  induction es with
  | nil => trivial
  | cons e es ih => exact (hpost e).bind fun _ => ih

end LedgerService

namespace RequestService

variable {P : Stmt → Prop} {log : List (Stmt × Db)}

/-- All that reading or creating a snapshot issues. -/
theorem within_snapshot (hlock : ∀ a, P (.lockSnapshot a)) (hselect : ∀ q, P (.select q))
    (hinsert : ∀ row, P (.insertSnapshot row)) (a : Account) (lock : Bool)
    (loaded : Option BalanceSnapshot) : (snapshot a lock loaded).Within P := by
  have hmissing : (do
      let balance : Int ← Tx.query (.balance a none)
      Program.perform (Stmt.insertSnapshot ⟨a, balance, 0⟩)
      return ⟨a, balance, 0⟩ : Tx BalanceSnapshot).Within P :=
    (Tx.within_query (hselect _)).bind fun balance =>
      (Tx.within_perform (hinsert _)).bind fun _ => trivial
  cases lock with
  | true =>
    refine (Tx.within_perform (hlock a)).bind fun row => ?_
    cases row with
    | some row => trivial
    | none => exact hmissing
  | false =>
    refine (Tx.within_query (hselect _)).bind fun row => ?_
    cases row with
    | some row => trivial
    | none => exact hmissing

/-- The version a request froze is read by its key or by its date. -/
theorem within_frozenVersion
    (heffective : ∀ policyId day, P (.select (.versionEffectiveOn policyId day)))
    (hversion : ∀ id, P (.select (.version id))) (r : TimeOffRequest) :
    (frozenVersion r).Within P := by
  refine (Tx.within_query (heffective _ _)).bind fun effective => ?_
  split
  · trivial
  · exact Tx.within_query (hversion _)

/-- `resolve` only reads. -/
theorem within_resolve (hselect : ∀ q, P (.select q)) (dir : Directory) (fields : RequestFields) :
    (resolve dir fields).Within P := by
  refine Tx.within_lift.bind fun employee => (Tx.within_query (hselect _)).bind fun found => ?_
  split
  · trivial
  · refine (Tx.within_query (hselect _)).bind fun found => ?_
    split
    · trivial
    · refine (Tx.within_query (hselect _)).bind fun holidays => Tx.within_lift.bind fun days =>
        (Tx.within_query (hselect _)).bind fun overlap => ?_
      split <;> trivial

/-- A resolution has checked, in one view, that no live request of the employee
is in the way; where the catalog stayed the same, it is right about that too. -/
theorem resolve_traces {dir : Directory} {fields : RequestFields} {r : Resolved}
    (h : (resolve dir fields).Traces database log r) :
    ∃ v, (Stmt.select (.overlap fields.employeeId fields.startDate fields.endDate), v) ∈ log ∧
      (∀ other ∈ v.requests.rows, other.employeeId = fields.employeeId →
        other.status.LIVE = true → ¬ other.Overlaps fields.startDate fields.endDate) ∧
      ((∀ x ∈ log, x.2.catalog = v.catalog) → Resolves dir fields v r) := by
  unfold resolve at h
  obtain ⟨employee, hemp, h⟩ := Tx.traces_lift.mp h
  -- one read of the catalog after the other, each of what is committed then
  obtain ⟨v₁, found, log, rfl, hassign, h⟩ := Tx.traces_query.mp h
  cases hcover : found.filter fun a => ¬ ∃ last ∈ a.effectiveTo, last < fields.endDate with
  | none =>
    rw [hcover] at h
    exact absurd h Program.not_traces_raise
  | some assignment =>
  rw [hcover] at h
  obtain ⟨rfl, hcov⟩ := Option.filter_eq_some_iff.mp hcover
  obtain ⟨v₂, found, log, rfl, hversion, h⟩ := Tx.traces_query.mp h
  cases found with
  | none => exact absurd h Program.not_traces_raise
  | some version =>
  obtain ⟨v₃, holidays, log, rfl, hholidays, h⟩ := Tx.traces_query.mp h
  obtain ⟨days, hdays, h⟩ := Tx.traces_lift.mp h
  obtain ⟨v, overlap, log, rfl, hoverlap, h⟩ := Tx.traces_query.mp h
  cases hholidays
  cases hoverlap
  split at h
  · exact absurd h Program.not_traces_raise
  next hnone =>
  obtain ⟨rfl, rfl⟩ := Program.traces_ret.mp h
  -- the last read is the one for live requests in the way
  have hapart : ∀ other ∈ v.requests.rows, other.employeeId = fields.employeeId →
      other.status.LIVE = true → ¬ other.Overlaps fields.startDate fields.endDate := by
    intro other hmem hemp' hlive hover
    refine hnone ?_
    rw [Option.isSome_map, List.find?_isSome]
    exact ⟨other, hmem, decide_eq_true ⟨hemp', hlive, hover⟩⟩
  refine ⟨v, by simp, hapart, fun hcat => ?_⟩
  -- if the catalog stayed as it was, all reads are of the state that the last one saw
  simp only [List.forall_mem_cons] at hcat
  obtain ⟨h₁, h₂, h₃, -⟩ := hcat
  rw [h₃] at hdays
  have hassign : v.catalog.assignmentForCategory employee.companyId fields.employeeId
      fields.categoryId fields.startDate = .ok (some assignment) := by
    rw [← h₁]
    exact hassign
  have hversion : v.catalog.versionEffectiveOn assignment.policyId fields.startDate
      = some version := by
    rw [← h₂]
    exact Except.ok.inj hversion
  refine ⟨⟨employee, hemp, hassign, hdays⟩, ?_, hversion, hapart⟩
  intro last hlast
  have := of_decide_eq_true hcov
  push Not at this
  exact this last hlast

end RequestService

/-! ## Logs of routes

The statements of a route around the one that writes a request. All others leave
the requests alone, so the log is described by where that one stands. -/

/-- The statement inserts or updates a request. -/
def Stmt.writesRequest : Stmt → Bool
  | .insertRequest _ | .updateRequest .. => true
  | _ => false

/-- No other statement changes one. -/
theorem Stmt.apply_requests {st : Stmt} (h : st.writesRequest = false) (db : Db) :
    (st.apply db).requests = db.requests := by
  cases st with
  | insertRequest row => cases h
  | updateRequest id u => cases h
  | _ => rfl

/-- Statements that do not write requests do not change them together. -/
theorem replay_requests {log : List (Stmt × Db)} (h : ∀ y ∈ log, y.1.writesRequest = false)
    (db : Db) : (Session.replay database log db).requests = db.requests := by
  induction log generalizing db with
  | nil => rfl
  | cons y rest ih =>
    have hy := Stmt.apply_requests (h y (List.mem_cons_self ..)) db
    exact (ih (fun z hz => h z (List.mem_cons_of_mem _ hz)) _).trans hy

namespace RequestService

variable {log : List (Stmt × Db)}

/-- Statements other than writes of requests. -/
abbrev Quiet {α : Type} (p : Tx α) : Prop := p.Within fun st => st.writesRequest = false

/-- The parts of a route that write no request. -/
theorem quiet_snapshot (a : Account) (loaded : Option BalanceSnapshot) :
    Quiet (snapshot a true loaded) :=
  within_snapshot (fun _ => rfl) (fun _ => rfl) (fun _ => rfl) a true loaded

theorem quiet_postEach (es : List LedgerEntry) : Quiet (LedgerService.postEach es) :=
  LedgerService.within_postEach (fun _ => rfl) (fun _ => rfl) (fun _ _ => rfl) es

theorem quiet_checkBalance (employeeId : String) (r : Resolved) :
    Quiet (checkBalance employeeId true r) := by
  refine (quiet_snapshot _ _).bind fun row => ?_
  dsimp only
  split <;> trivial

/-- The log of a submission: reads and locks, then the new row. -/
theorem submit_traces {dir : Directory} {id : Uuid} {actorId reason : String}
    {fields : RequestFields} {row : TimeOffRequest}
    (h : (submit dir id actorId reason fields).Traces database log row) :
    ∃ r pre w post, log = pre ++ (.insertRequest row, w) :: post ∧
      row = newRequest id actorId reason fields r ∧ ¬ w.requests.Has row.id ∧
      (∀ y ∈ pre, y.1.writesRequest = false) ∧ (∀ y ∈ post, y.1.writesRequest = false) ∧
      ∃ v, (Stmt.select (.overlap fields.employeeId fields.startDate fields.endDate), v) ∈ pre ∧
        ∀ other ∈ v.requests.rows, other.employeeId = fields.employeeId →
          other.status.LIVE = true → ¬ other.Overlaps fields.startDate fields.endDate := by
  obtain ⟨log₁, r, log₂, rfl, h₁, h₂⟩ := Program.traces_bind.mp h
  obtain ⟨v, hv, hapart, -⟩ := resolve_traces h₁
  have hquiet₁ := (within_resolve (P := fun st => st.writesRequest = false) (fun _ => rfl) dir
    fields).of_traces h₁
  obtain ⟨log₃, result, log₄, rfl, h₃, h₄⟩ := Program.traces_bind.mp h₂
  have hquiet₃ := (quiet_checkBalance fields.employeeId r).of_traces h₃
  -- an insert that went through found the key free
  have hfree : ∀ {w : Db} {u : Unit} {row : TimeOffRequest},
      (Stmt.insertRequest row).answer w = .ok u → ¬ w.requests.Has row.id := by
    intro w u row hu hhas
    cases (if_pos hhas).symm.trans hu
  refine ⟨r, ?_⟩
  unfold store at h₄
  split at h₄
  · -- with a balance, the snapshot is locked again before the row is stored
    obtain ⟨log₅, held, log₆, rfl, h₅, h₆⟩ := Program.traces_bind.mp h₄
    have hquiet₅ := (quiet_snapshot _ _).of_traces h₅
    obtain ⟨w, u, rest, rfl, hu, h₆⟩ := Tx.traces_perform.mp h₆
    obtain ⟨w', u', rest, rfl, -, h₆⟩ := Tx.traces_perform.mp h₆
    obtain ⟨rfl, rfl⟩ := Program.traces_ret.mp h₆
    have hassoc : ∀ rest, log₁ ++ (log₃ ++ (log₅ ++ rest)) = log₁ ++ (log₃ ++ log₅) ++ rest := by
      intro rest
      rw [List.append_assoc, List.append_assoc]
    refine ⟨log₁ ++ (log₃ ++ log₅), w, _, hassoc _, rfl, hfree hu, ?_, ?_, v,
      List.mem_append_left _ hv, hapart⟩
    · intro y hy
      rcases List.mem_append.mp hy with hy | hy
      · exact hquiet₁ y hy
      rcases List.mem_append.mp hy with hy | hy
      · exact hquiet₃ y hy
      · exact hquiet₅ y hy
    · intro y hy
      rw [List.mem_singleton.mp hy]
      rfl
  · obtain ⟨w, u, rest, rfl, hu, h₆⟩ := Tx.traces_perform.mp h₄
    obtain ⟨rfl, rfl⟩ := Program.traces_ret.mp h₆
    refine ⟨log₁ ++ log₃, w, [], (List.append_assoc ..).symm, rfl, hfree hu, ?_,
      fun y hy => absurd hy List.not_mem_nil, v, List.mem_append_left _ hv, hapart⟩
    intro y hy
    rcases List.mem_append.mp hy with hy | hy
    · exact hquiet₁ y hy
    · exact hquiet₃ y hy

/-- The log of a decision: the request is locked and found pending, and written
last. -/
theorem decide_traces {id : Uuid} {approve : Bool} {actorId : String} {note : Option String}
    {a : TimeOffRequest} (h : (decide id approve actorId note).Traces database log a) :
    ∃ r v mid w, log = (.lockRequest id, v) ::
        (mid ++ [(.updateRequest id (decision approve actorId note), w)]) ∧
      v.requests.find? id = some r ∧ r.status = .PENDING ∧
      ∀ y ∈ mid, y.1.writesRequest = false := by
  obtain ⟨v, found, log, rfl, hfound, hrest⟩ := Tx.traces_perform.mp h
  cases found with
  | none => exact absurd hrest Program.not_traces_raise
  | some r =>
  have hfind : v.requests.find? id = some r := Except.ok.inj hfound
  obtain ⟨-, rfl⟩ := Table.find?_eq_some.mp hfind
  dsimp only at hrest
  split at hrest
  · exact absurd hrest Program.not_traces_raise
  next hpending =>
  -- behind the lock of the request: the version, the snapshot, debits, hold, and the row
  -- last
  obtain ⟨log₁, found, log₂, rfl, h₁, h⟩ := Program.traces_bind.mp hrest
  have hquiet₁ := (within_frozenVersion (P := fun st => st.writesRequest = false)
    (fun _ _ => rfl) (fun _ => rfl) r).of_traces h₁
  obtain ⟨log₃, row, log₄, rfl, h₃, h⟩ := Program.traces_bind.mp h
  have hquiet₃ := (quiet_snapshot _ _).of_traces h₃
  cases found with
  | none => exact absurd h Program.not_traces_raise
  | some version =>
  obtain ⟨log₅, u, log₆, rfl, h₅, h⟩ := Program.traces_bind.mp h
  have hdebit : Quiet (debitRequest r approve version row) := by
    unfold debitRequest
    split
    · split
      · trivial
      · exact quiet_postEach _
    · trivial
  obtain ⟨log₇, u', log₈, rfl, h₇, h⟩ := Program.traces_bind.mp h
  have hrelease : Quiet (releaseHold r version row) := by
    unfold releaseHold
    split
    · exact Tx.within_perform rfl
    · trivial
  obtain ⟨w, u'', rest, rfl, -, h⟩ := Tx.traces_perform.mp h
  obtain ⟨rfl, -⟩ := Program.traces_ret.mp h
  refine ⟨r, v, log₁ ++ (log₃ ++ (log₅ ++ log₇)), w, by simp only [List.append_assoc], hfind,
    not_not.mp hpending, ?_⟩
  intro y hy
  rcases List.mem_append.mp hy with hy | hy
  · exact hquiet₁ y hy
  rcases List.mem_append.mp hy with hy | hy
  · exact hquiet₃ y hy
  rcases List.mem_append.mp hy with hy | hy
  · exact hdebit.of_traces h₅ y hy
  · exact hrelease.of_traces h₇ y hy

/-- The log of a cancellation: the request is written last. -/
theorem cancel_traces {r a : TimeOffRequest} {actorId : String} {today : Date}
    (h : (cancel r actorId today).Traces database log a) :
    ∃ pre w, log = pre ++ [(.updateRequest r.id (cancellation r.status actorId), w)] ∧
      ∀ y ∈ pre, y.1.writesRequest = false := by
  unfold cancel at h
  split at h
  · exact absurd h Program.not_traces_raise
  split at h
  · exact absurd h Program.not_traces_raise
  obtain ⟨log₁, row, log₂, rfl, h₁, h⟩ := Program.traces_bind.mp h
  have hquiet₁ := (quiet_snapshot _ _).of_traces h₁
  obtain ⟨log₃, u, log₄, rfl, h₃, h⟩ := Program.traces_bind.mp h
  have hgive : Quiet (giveBack r row) := by
    unfold giveBack
    split
    · exact Tx.within_perform rfl
    · exact quiet_postEach _
  obtain ⟨w, u', rest, rfl, -, h⟩ := Tx.traces_perform.mp h
  obtain ⟨rfl, -⟩ := Program.traces_ret.mp h
  refine ⟨log₁ ++ log₃, w, by simp only [List.append_assoc], fun y hy => ?_⟩
  rcases List.mem_append.mp hy with hy | hy
  · exact hquiet₁ y hy
  · exact hgive.of_traces h₃ y hy

end RequestService

namespace Api

variable {log : List (Stmt × Db)}

/-- Without an admin nothing is decided. -/
theorem decide_of_error {actor : Employee} {id : Uuid} {approve : Bool} {note : Option String}
    {e : Error} (h : requireAdmin actor = .error e) : decide actor id approve note = .raise e := by
  unfold decide
  rw [h]
  rfl

/-- An admin's decision finds the request and decides it. -/
theorem decide_of_ok {actor : Employee} {id : Uuid} {approve : Bool} {note : Option String}
    {u : Unit} (h : requireAdmin actor = .ok u) :
    decide actor id approve note
      = findRequest id actor.companyId >>= fun row =>
          RequestService.decide row.id approve actor.id note := by
  unfold decide
  rw [h]
  rfl

/-- The log of a lookup is one query, which found the request. -/
theorem findRequest_traces {id : Uuid} {companyId : String} {r : TimeOffRequest}
    (h : (findRequest id companyId).Traces database log r) :
    ∃ v, log = [(.select (.request id companyId), v)] ∧ v.requests.find? id = some r ∧
      r.companyId = companyId := by
  obtain ⟨v, found, rest, rfl, hfound, h⟩ := Tx.traces_query.mp h
  cases found with
  | none => exact absurd h Program.not_traces_raise
  | some row =>
    obtain ⟨rfl, rfl⟩ := Program.traces_ret.mp h
    obtain ⟨hfind, hcompany⟩ := Option.filter_eq_some_iff.mp (Except.ok.inj hfound)
    exact ⟨v, rfl, hfind, of_decide_eq_true hcompany⟩

end Api

end TimeOff
