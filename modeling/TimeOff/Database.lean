import TimeOff.Lib.Interleaving
import TimeOff.Lib.Text
import TimeOff.Models

/-!
# Statements of a transaction

The services talk to PostgreSQL through few kinds of statement (`Stmt`): plain
reads, `SELECT … FOR UPDATE` of a request or a snapshot, and writes of single
rows. `database` gives each its answer, its effect and the row lock it waits
for:

- a locking read locks the row it finds, and nothing when there is none;
- an insert with a unique key waits for another transaction's uncommitted insert
  of the key, and only then finds out whether the key is taken;
- an update locks the row it writes.

Objects of the session are values here: what a service read is what it goes on
with, until it reads again. Statements that only flush pending objects stand
where the code flushes.

A service call is a program over these statements (`Tx`). Run alone, each
statement sees the database as the ones before it left it (`Tx.run`);
interleaved, it sees what is committed and the transaction's own writes, and
waits where its lock is held. The catalog has no statement that writes it: its
operations are functions, and the transactions that run side by side are those
of jobs and requests.

The text of a date is needed for the sources of entries. It determines the date
(`isoformat_inj`) and contains no separator of sources.
-/

namespace TimeOff

open Gregorian

/-- The rows that a transaction can hold: a request, a snapshot, or the key of
an entry it has inserted. -/
inductive Lock
  | request (id : Uuid)
  | snapshot (account : Account)
  | entry (key : SourceKey)
deriving DecidableEq, Repr

/-! ## Plain reads -/

/-- The plain reads of the services. -/
inductive Query
  /-- `policy_service.version_effective_on` -/
  | versionEffectiveOn (policyId : Uuid) (onDate : Date)
  /-- `session.get(PolicyVersion, id)` -/
  | version (id : Uuid)
  /-- `policy.versions` -/
  | versions (policyId : Uuid)
  /-- `assignment_service.assignment_for_category` -/
  | assignmentForCategory (companyId employeeId : String) (categoryId : Uuid) (onDate : Date)
  /-- the assignments of a company that began by `asOf` -/
  | assignmentsBegun (companyId : String) (asOf : Date)
  /-- the assignments of a company that cover `day`, of one employee if given -/
  | assignmentsCovering (companyId : String) (employeeId : Option String) (day : Date)
  /-- the holidays of a company in a range -/
  | holidays (companyId : String) (start finish : Date)
  /-- a live request of an employee that overlaps a range -/
  | overlap (employeeId : String) (start finish : Date)
  /-- a request of a company by id -/
  | request (id : Uuid) (companyId : String)
  /-- the snapshot of an account -/
  | snapshot (account : Account)
  /-- `ledger_service.balance` -/
  | balance (account : Account) (asOf : Option Date)
deriving DecidableEq, Repr

namespace Query

/-- What a read answers. -/
abbrev Answer : Query → Type
  | .versionEffectiveOn .. => Option PolicyVersion
  | .version .. => Option PolicyVersion
  | .versions .. => List PolicyVersion
  | .assignmentForCategory .. => Option PolicyAssignment
  | .assignmentsBegun .. => List PolicyAssignment
  | .assignmentsCovering .. => List PolicyAssignment
  | .holidays .. => List Date
  | .overlap .. => Option Uuid
  | .request .. => Option TimeOffRequest
  | .snapshot _ => Option BalanceSnapshot
  | .balance .. => Int

end Query

/-- `scalar_one_or_none` -/
def scalarOneOrNone {α : Type} : List α → Except Error (Option α)
  | [] => .ok none
  | [a] => .ok (some a)
  | _ => .error .multipleResults

/-- The answer is one of the rows. -/
theorem mem_of_scalarOneOrNone {α : Type} {l : List α} {a : α}
    (h : scalarOneOrNone l = .ok (some a)) : a ∈ l := by
  match l, h with
  | [b], h =>
    cases h
    exact List.mem_singleton.mpr rfl

namespace Catalog

/-- `assignment_service.assignment_for_category` -/
def assignmentForCategory (c : Catalog) (companyId employeeId : String) (categoryId : Uuid)
    (onDate : Date) : Except Error (Option PolicyAssignment) :=
  scalarOneOrNone (c.assignments.rows.filter fun a =>
    a.companyId = companyId ∧ a.employeeId = employeeId ∧ a.categoryId = categoryId ∧
      a.Covers onDate)

theorem mem_of_assignmentForCategory {c : Catalog} {companyId employeeId : String}
    {categoryId : Uuid} {onDate : Date} {a : PolicyAssignment}
    (h : c.assignmentForCategory companyId employeeId categoryId onDate = .ok (some a)) :
    a ∈ c.assignments.rows :=
  List.mem_of_mem_filter (mem_of_scalarOneOrNone h)

/-- The assignments of a company that have begun. -/
def assignmentsBegun (c : Catalog) (companyId : String) (asOf : Date) : List PolicyAssignment :=
  c.assignments.rows.filter fun a => a.companyId = companyId ∧ a.effectiveFrom ≤ asOf

/-- Those that cover a day, of one employee or of all. -/
def assignmentsCovering (c : Catalog) (companyId : String) (employeeId : Option String)
    (day : Date) : List PolicyAssignment :=
  c.assignments.rows.filter fun a =>
    a.companyId = companyId ∧ (∀ e ∈ employeeId, a.employeeId = e) ∧ a.Covers day

/-- The holidays of a company in a range of days. -/
def holidayDates (c : Catalog) (companyId : String) (start finish : Date) : List Date :=
  (c.holidays.rows.filter fun h => h.companyId = companyId ∧ start ≤ h.date ∧ h.date ≤ finish).map
    (·.date)

end Catalog

/-- Two date ranges share a day. -/
def TimeOffRequest.Overlaps (r : TimeOffRequest) (start finish : Date) : Prop :=
  r.startDate ≤ finish ∧ start ≤ r.endDate

instance (r : TimeOffRequest) (start finish : Date) : Decidable (r.Overlaps start finish) :=
  inferInstanceAs (Decidable (_ ∧ _))

/-- The answer of a read. -/
def Query.run (db : Db) : (q : Query) → Except Error q.Answer
  | .versionEffectiveOn policyId onDate => .ok (db.catalog.versionEffectiveOn policyId onDate)
  | .version id => .ok (db.catalog.version id)
  | .versions policyId => .ok (db.catalog.versionsOf policyId)
  | .assignmentForCategory companyId employeeId categoryId onDate =>
    db.catalog.assignmentForCategory companyId employeeId categoryId onDate
  | .assignmentsBegun companyId asOf => .ok (db.catalog.assignmentsBegun companyId asOf)
  | .assignmentsCovering companyId employeeId day =>
    .ok (db.catalog.assignmentsCovering companyId employeeId day)
  | .holidays companyId start finish => .ok (db.catalog.holidayDates companyId start finish)
  | .overlap employeeId start finish =>
    .ok ((db.requests.rows.find? fun r =>
      r.employeeId = employeeId ∧ r.status.LIVE ∧ r.Overlaps start finish).map (·.id))
  | .request id companyId =>
    .ok ((db.requests.find? id).filter fun r => r.companyId = companyId)
  | .snapshot account => .ok (db.snapshots.find? account)
  | .balance account asOf => .ok (db.ledger.balance account asOf)

/-! ## Writes -/

/-- What a decision or a cancellation writes to a request. -/
structure RequestUpdate where
  status : RequestStatus
  decidedBy : Option String := none
  event : RequestEvent
deriving DecidableEq, Repr

/-- Write a decision or a cancellation, with its event. -/
def TimeOffRequest.update (u : RequestUpdate) (r : TimeOffRequest) : TimeOffRequest :=
  { r with
    status := u.status
    decidedBy := u.decidedBy <|> r.decidedBy
    events := r.events ++ [u.event] }

/-- The statements of the services. -/
inductive Stmt
  | select (q : Query)
  | lockRequest (id : Uuid)
  | lockSnapshot (account : Account)
  /-- `ON CONFLICT DO NOTHING RETURNING id` -/
  | insertLedgerEntry (e : LedgerEntry)
  /-- `ON CONFLICT DO UPDATE SET balance_minutes` -/
  | upsertSnapshot (account : Account) (balanceMinutes : Int)
  | insertSnapshot (row : BalanceSnapshot)
  | updateSnapshotHold (account : Account) (pendingHoldMinutes : Int)
  | insertRequest (row : TimeOffRequest)
  | updateRequest (id : Uuid) (u : RequestUpdate)
  | insertJobRun (run : JobRun)
deriving DecidableEq, Repr

namespace Stmt

/-- What a statement answers. -/
abbrev Answer : Stmt → Type
  | .select q => q.Answer
  | .lockRequest _ => Option TimeOffRequest
  | .lockSnapshot _ => Option BalanceSnapshot
  | .insertLedgerEntry _ => Bool
  | .upsertSnapshot .. | .insertSnapshot _ | .updateSnapshotHold .. | .insertRequest _
  | .updateRequest .. | .insertJobRun _ => Unit

/-- What a statement answers, or how it fails. -/
def answer (db : Db) : (s : Stmt) → Except Error s.Answer
  | .select q => q.run db
  | .lockRequest id => .ok (db.requests.find? id)
  | .lockSnapshot account => .ok (db.snapshots.find? account)
  | .insertLedgerEntry e => .ok (!decide (db.ledger.Has e.key))
  | .insertSnapshot row => if db.snapshots.Has row.account then .error .integrity else .ok ()
  | .insertRequest row => if db.requests.Has row.id then .error .integrity else .ok ()
  | .upsertSnapshot .. | .updateSnapshotHold .. | .updateRequest .. | .insertJobRun _ => .ok ()

/-- Set the balance of a snapshot, creating the row with no hold if needed. -/
def upsertBalance (db : Db) (account : Account) (balanceMinutes : Int) : Db :=
  { db with
    snapshots := (db.snapshots.insertNew ⟨account, balanceMinutes, 0⟩).modify account
      (fun row => { row with balanceMinutes := balanceMinutes }) fun _ => rfl }

/-- Set the hold of a snapshot. -/
def setHold (db : Db) (account : Account) (pendingHoldMinutes : Int) : Db :=
  { db with
    snapshots := db.snapshots.modify account
      (fun row => { row with pendingHoldMinutes := pendingHoldMinutes }) fun _ => rfl }

/-- Update the row of a request. -/
def setRequest (db : Db) (id : Uuid) (u : RequestUpdate) : Db :=
  { db with requests := db.requests.modify id (TimeOffRequest.update u) fun _ => rfl }

/-- What a statement does to the database. -/
def apply (s : Stmt) (db : Db) : Db :=
  match s with
  | .select _ | .lockRequest _ | .lockSnapshot _ => db
  | .insertLedgerEntry e => { db with ledger := db.ledger.insertNew e }
  | .upsertSnapshot account balanceMinutes => upsertBalance db account balanceMinutes
  | .insertSnapshot row => { db with snapshots := db.snapshots.insertNew row }
  | .updateSnapshotHold account pendingHoldMinutes => setHold db account pendingHoldMinutes
  | .insertRequest row => { db with requests := db.requests.insertNew row }
  | .updateRequest id u => setRequest db id u
  | .insertJobRun run => { db with jobRuns := db.jobRuns ++ [run] }

/-- The lock a statement waits for and then holds. -/
def needs (s : Stmt) (db : Db) : Option Lock :=
  match s with
  | .select _ | .insertJobRun _ => none
  | .lockRequest id => if db.requests.Has id then some (.request id) else none
  | .lockSnapshot account => if db.snapshots.Has account then some (.snapshot account) else none
  | .insertLedgerEntry e => if db.ledger.Has e.key then none else some (.entry e.key)
  | .insertSnapshot row =>
    if db.snapshots.Has row.account then none else some (.snapshot row.account)
  | .upsertSnapshot account _ | .updateSnapshotHold account _ => some (.snapshot account)
  | .insertRequest row => if db.requests.Has row.id then none else some (.request row.id)
  | .updateRequest id _ => some (.request id)

/-- Only requests of the session change it: the catalog never does. -/
@[simp] theorem apply_catalog (s : Stmt) (db : Db) : (s.apply db).catalog = db.catalog := by
  cases s <;> rfl

end Stmt

/-- `date.isoformat`; a year before 1 keeps its sign. -/
def isoformat (d : Date) : String :=
  (if d.year < 0 then "-" else "") ++ Text.pad 4 d.year.natAbs ++ "-" ++
    Text.pad 2 d.month.toNat ++ "-" ++ Text.pad 2 d.day.toNat

/-- A date's text after the sign. -/
def isoDigits (d : Date) : String :=
  Text.pad 4 d.year.natAbs ++ "-" ++ (Text.pad 2 d.month.toNat ++ "-" ++ Text.pad 2 d.day.toNat)

/-- A sign for years before 1, then the digits. -/
theorem isoformat_eq (d : Date) :
    isoformat d = (if d.year < 0 then "-" else "") ++ isoDigits d := by
  simp only [isoformat, isoDigits, String.append_assoc]

/-- Dates have dashes and no colons. -/
theorem dash_mem_isoformat (d : Date) : '-' ∈ (isoformat d).toList := by
  simp [isoformat]

theorem colon_notMem_isoformat (d : Date) : ':' ∉ (isoformat d).toList := by
  have hpad : ∀ w n, ':' ∉ (Text.pad w n).toList := fun w n => Text.sep_notMem_pad rfl
  simp only [isoformat]
  split <;> simp [hpad]

/-- A year's digits do not begin with a sign. -/
theorem minus_append_ne_isoDigits {s : String} (d : Date) : "-" ++ s ≠ isoDigits d := by
  intro h
  have hsep : ("" : String) ++ String.singleton '-' ++ s
      = Text.pad 4 d.year.natAbs ++ String.singleton '-' ++
        (Text.pad 2 d.month.toNat ++ "-" ++ Text.pad 2 d.day.toNat) := h
  obtain ⟨hnil, -⟩ := Text.append_sep_inj (by simp) (Text.sep_notMem_pad rfl) hsep
  exact Text.pad_ne_empty (by decide) hnil.symm

/-- The digits determine the date up to the sign of its year. -/
theorem isoDigits_inj {d e : Date} (h : isoDigits d = isoDigits e) :
    d.year.natAbs = e.year.natAbs ∧ d.month = e.month ∧ d.day = e.day := by
  obtain ⟨hyear, hrest⟩ := Text.append_sep_inj (x := '-') (Text.sep_notMem_pad rfl)
    (Text.sep_notMem_pad rfl) h
  obtain ⟨hmonth, hday⟩ := Text.append_sep_inj (x := '-') (Text.sep_notMem_pad rfl)
    (Text.sep_notMem_pad rfl) hrest
  obtain ⟨hd₁, -, hd₂, -⟩ := ymd_spec d
  obtain ⟨he₁, -, he₂, -⟩ := ymd_spec e
  refine ⟨Text.pad_inj hyear, ?_, ?_⟩
  · have := Text.pad_inj hmonth
    omega
  · have := Text.pad_inj hday
    omega

/-- The text of a date determines it. -/
theorem isoformat_inj {d e : Date} (h : isoformat d = isoformat e) : d = e := by
  obtain ⟨hyear, hmonth, hday⟩ : d.year = e.year ∧ d.month = e.month ∧ d.day = e.day := by
    rw [isoformat_eq, isoformat_eq] at h
    by_cases hd : d.year < 0 <;> by_cases he : e.year < 0
    · rw [if_pos hd, if_pos he] at h
      obtain ⟨hyear, hrest⟩ := isoDigits_inj ((String.append_right_inj "-").mp h)
      exact ⟨by omega, hrest⟩
    · rw [if_pos hd, if_neg he, String.empty_append] at h
      exact absurd h (minus_append_ne_isoDigits e)
    · rw [if_neg hd, if_pos he, String.empty_append] at h
      exact absurd h.symm (minus_append_ne_isoDigits d)
    · rw [if_neg hd, if_neg he, String.empty_append, String.empty_append] at h
      obtain ⟨hyear, hrest⟩ := isoDigits_inj h
      exact ⟨by omega, hrest⟩
  rw [← (ymd_spec d).2.2.2.2, ← (ymd_spec e).2.2.2.2, hyear, hmonth, hday]

/-- What statements mean. -/
def database : Semantics Stmt Stmt.Answer Db Lock Error where
  answer s db := s.answer db
  apply s db := s.apply db
  needs s db := s.needs db

/-- A service call: a program over the statements. -/
abbrev Tx (α : Type) := Program Stmt Stmt.Answer Error α

namespace Tx

/-- A plain read. -/
def query (q : Query) : Tx q.Answer := Program.perform (Stmt.select q)

/-- An operation of the application without statements. -/
def lift {α : Type} : Except Error α → Tx α
  | .ok a => .ret a
  | .error e => .raise e

/-- Run alone, from start to commit. -/
abbrev run {α : Type} (p : Tx α) (db : Db) : Except Error (α × Db) := p.exec database db

/-- Programs run statement by statement. -/
theorem run_perform {α : Type} {s : Stmt} {f : s.Answer → Tx α} {db : Db} {r : s.Answer}
    (h : s.answer db = .ok r) : run (Program.perform s >>= f) db = run (f r) (s.apply db) :=
  Program.exec_call_ok (M := database) (s := s) h

theorem run_perform_error {α : Type} {s : Stmt} {f : s.Answer → Tx α} {db : Db} {e : Error}
    (h : s.answer db = .error e) : run (Program.perform s >>= f) db = .error e :=
  Program.exec_call_error (M := database) (s := s) h

theorem run_query {α : Type} {q : Query} {f : q.Answer → Tx α} {db : Db} {r : q.Answer}
    (h : q.run db = .ok r) : run (query q >>= f) db = run (f r) db :=
  run_perform (s := .select q) h

/-- A successful read goes on with its answer. -/
theorem run_query_ok {α : Type} {q : Query} {f : q.Answer → Tx α} {db : Db} {x : α × Db} :
    run (query q >>= f) db = .ok x ↔ ∃ r, q.run db = .ok r ∧ run (f r) db = .ok x := by
  cases h : q.run db with
  | ok r =>
    rw [run_query h]
    exact ⟨fun hx => ⟨r, rfl, hx⟩, fun ⟨_, hr, hx⟩ => by cases hr; exact hx⟩
  | error e =>
    have herr : run (query q >>= f) db = .error e := run_perform_error (s := .select q) h
    rw [herr]
    exact ⟨fun hx => (nomatch hx), fun ⟨_, hr, _⟩ => (nomatch hr)⟩

/-- A check goes on with its result. -/
theorem run_lift_ok {α β : Type} {x : Except Error α} {f : α → Tx β} {db : Db} {y : β × Db} :
    run (lift x >>= f) db = .ok y ↔ ∃ a, x = .ok a ∧ run (f a) db = .ok y := by
  cases x with
  | ok a => exact ⟨fun h => ⟨a, rfl, h⟩, fun ⟨_, ha, h⟩ => by cases ha; exact h⟩
  | error e => exact ⟨fun h => (nomatch h), fun ⟨_, ha, _⟩ => (nomatch ha)⟩

end Tx

/-- Record a job's outcome. -/
def recordRun (run : JobRun) : Tx JobRun := do
  Program.perform (Stmt.insertJobRun run)
  return run

/-- The database after a job recorded its outcome. -/
def Db.recordRun (run : JobRun) (db : Db) : Db := { db with jobRuns := db.jobRuns ++ [run] }

/-- The outcome of a job is kept beside everything else. -/
@[simp] theorem Db.recordRun_catalog {run : JobRun} {db : Db} :
    (db.recordRun run).catalog = db.catalog := rfl

@[simp] theorem Db.recordRun_ledger {run : JobRun} {db : Db} :
    (db.recordRun run).ledger = db.ledger := rfl

end TimeOff
