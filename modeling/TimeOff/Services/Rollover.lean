import TimeOff.Domain.Rollover
import TimeOff.Services.Ledger

/-!
# Rollover service

Annual closing of accounts. The rollover closes the year before `as_of`: it
takes the assignments that cover the last day of that year, one after the other,
and posts for each the entries that its balance on that day calls for, under the
version in force then. The source of an entry names the assignment, the day and
the leg, so a closing is posted once; the balance is read anew each time.

Run alone, closing an assignment is a function on databases, `Db.closeAccount`
(`run_closeAssignment`), and a rollover the fold of it over the assignments,
with an audit row that counts the new entries (`run_run`).
-/

namespace TimeOff

open Gregorian

namespace RolloverService

/-- The last day of the year before `asOf`'s. -/
def closingDay (asOf : Date) : Date := (ofYmd asOf.year 1 1).addDays (-1)

/-- The source id of a closing's leg. -/
def closingSource (policyId : Uuid) (employeeId : String) (periodEnd : Date) (suffix : String) :
    String :=
  policyId.text ++ ":" ++ employeeId ++ ":" ++ isoformat periodEnd ++ ":" ++ suffix

/-- A leg of a closing as it is stored. -/
def closingEntry (companyId : String) (assignment : PolicyAssignment) (version : PolicyVersion)
    (periodEnd : Date) (entry : RolloverEntry) : LedgerEntry where
  companyId := companyId
  employeeId := assignment.employeeId
  policyId := assignment.policyId
  policyVersionId := version.id
  entryType := entry.entryType
  amountMinutes := entry.amountMinutes
  effectiveDate := entry.effectiveDate
  sourceType := .PERIOD_ROLLOVER
  sourceId := closingSource assignment.policyId assignment.employeeId periodEnd entry.sourceSuffix
  note := entry.note

/-- The entries that close an account with year-end balance `balance`. -/
def closingEntries (companyId : String) (assignment : PolicyAssignment) (version : PolicyVersion)
    (periodEnd : Date) (balance : Int) : List LedgerEntry :=
  (plan balance periodEnd version.carryoverCapMinutes version.expiresAtPeriodEnd).map
    (closingEntry companyId assignment version periodEnd)

/-- The body of the loop: close the account of one assignment, and count the new
entries. -/
def closeAssignment (companyId : String) (periodEnd : Date) (created : Int)
    (assignment : PolicyAssignment) : Tx Int := do
  let version : Option PolicyVersion ←
    Tx.query (.versionEffectiveOn assignment.policyId periodEnd)
  match version with
  | none => return created
  | some version =>
    if version.kind = .UNLIMITED then return created
    else do
      let balance : Int ← Tx.query
        (.balance ⟨assignment.employeeId, assignment.policyId⟩ (some periodEnd))
      (closingEntries companyId assignment version periodEnd balance).foldlM
        (fun created entry => do
          let more ← LedgerService.post entry
          return created + more) created

/-- `run`: close the accounts of a company for the year before `as_of`. -/
def run (companyId : String) (asOf : Date) : Tx JobRun := do
  let periodEnd := closingDay asOf
  let assignments : List PolicyAssignment ←
    Tx.query (.assignmentsCovering companyId none periodEnd)
  let created ← assignments.foldlM (closeAssignment companyId periodEnd) 0
  recordRun ⟨companyId, .ROLLOVER, isoformat periodEnd, "SUCCESS", created⟩

end RolloverService

/-! ## Run alone

Closing an account posts the entries of its plan; a rollover is these posts in
turn and the audit row. -/

namespace Db

/-- The database after an account was closed. -/
def closeAccount (companyId : String) (periodEnd : Date) (assignment : PolicyAssignment) (db : Db) :
    Db :=
  match db.catalog.versionEffectiveOn assignment.policyId periodEnd with
  | none => db
  | some version =>
    if version.kind = .UNLIMITED then db
    else db.posts (RolloverService.closingEntries companyId assignment version periodEnd
      (db.ledger.balance ⟨assignment.employeeId, assignment.policyId⟩ (some periodEnd)))

/-- The database after accounts were closed in turn. -/
def closeAccounts (companyId : String) (periodEnd : Date) (assignments : List PolicyAssignment)
    (db : Db) : Db :=
  assignments.foldl (fun db a => db.closeAccount companyId periodEnd a) db

@[simp] theorem closeAccounts_cons (companyId : String) (periodEnd : Date)
    (assignment : PolicyAssignment) (rest : List PolicyAssignment) (db : Db) :
    db.closeAccounts companyId periodEnd (assignment :: rest)
      = (db.closeAccount companyId periodEnd assignment).closeAccounts companyId periodEnd rest :=
  rfl

/-- A closing posts to the ledger and leaves the catalog alone. -/
@[simp] theorem closeAccount_catalog (companyId : String) (periodEnd : Date)
    (assignment : PolicyAssignment) (db : Db) :
    (db.closeAccount companyId periodEnd assignment).catalog = db.catalog := by
  simp only [closeAccount]
  split
  · rfl
  · split <;> simp

@[simp] theorem closeAccounts_recordRun {companyId : String} {periodEnd : Date}
    {xs : List PolicyAssignment} {run : JobRun} {db : Db} :
    (db.recordRun run).closeAccounts companyId periodEnd xs
      = (db.closeAccounts companyId periodEnd xs).recordRun run := by
  induction xs generalizing db with
  | nil => rfl
  | cons x xs ih =>
    have hfirst : (db.recordRun run).closeAccount companyId periodEnd x
        = (db.closeAccount companyId periodEnd x).recordRun run := by
      simp only [closeAccount]
      rw [recordRun_catalog]
      cases db.catalog.versionEffectiveOn x.policyId periodEnd with
      | none => rfl
      | some version =>
        dsimp only
        split
        · rfl
        · exact posts_recordRun
    rw [closeAccounts_cons, hfirst, ih, closeAccounts_cons]

/-- What a closing posts is a closing entry of the version in force. -/
theorem closeAccount_eq_posts (companyId : String) (periodEnd : Date)
    (assignment : PolicyAssignment) (db : Db) :
    ∃ es, db.closeAccount companyId periodEnd assignment = db.posts es ∧
      ∀ e ∈ es, ∃ version balance,
        db.catalog.versionEffectiveOn assignment.policyId periodEnd = some version ∧
        e ∈ RolloverService.closingEntries companyId assignment version periodEnd balance := by
  simp only [closeAccount]
  split
  · exact ⟨[], rfl, fun _ h => by cases h⟩
  · next version hversion =>
    split
    · exact ⟨[], rfl, fun _ h => by cases h⟩
    · exact ⟨_, rfl, fun _ h => ⟨version, _, hversion, h⟩⟩

/-- Closing accounts posts closing entries, by the versions in force. -/
theorem closeAccounts_eq_posts (companyId : String) (periodEnd : Date)
    (assignments : List PolicyAssignment) (db : Db) :
    ∃ es, db.closeAccounts companyId periodEnd assignments = db.posts es ∧
      ∀ e ∈ es, ∃ assignment ∈ assignments, ∃ version balance,
        db.catalog.versionEffectiveOn assignment.policyId periodEnd = some version ∧
        e ∈ RolloverService.closingEntries companyId assignment version periodEnd balance := by
  induction assignments generalizing db with
  | nil => exact ⟨[], rfl, fun _ h => by cases h⟩
  | cons a rest ih =>
    obtain ⟨es₁, h₁, hes₁⟩ := closeAccount_eq_posts companyId periodEnd a db
    obtain ⟨es₂, h₂, hes₂⟩ := ih (db.closeAccount companyId periodEnd a)
    rw [closeAccount_catalog] at hes₂
    refine ⟨es₁ ++ es₂, ?_, fun e he => ?_⟩
    · rw [posts_append, ← h₁, ← h₂]
      rfl
    · rcases List.mem_append.mp he with he | he
      · exact ⟨a, List.mem_cons_self .., hes₁ e he⟩
      · obtain ⟨b, hb, hmem⟩ := hes₂ e he
        exact ⟨b, List.mem_cons_of_mem _ hb, hmem⟩

end Db

namespace RolloverService

/-- Closing entries are marked as such. -/
theorem sourceType_of_closingEntries {companyId : String} {assignment : PolicyAssignment}
    {version : PolicyVersion} {periodEnd : Date} {balance : Int} {e : LedgerEntry}
    (h : e ∈ closingEntries companyId assignment version periodEnd balance) :
    e.sourceType = .PERIOD_ROLLOVER := by
  obtain ⟨entry, -, rfl⟩ := List.mem_map.mp h
  rfl

/-- Run alone, closing an assignment does what `Db.closeAccount` does, and
counts it. -/
theorem run_closeAssignment (companyId : String) (periodEnd : Date) (created : Int)
    (assignment : PolicyAssignment) (db : Db) :
    Tx.run (closeAssignment companyId periodEnd created assignment) db
      = .ok (created + db.entriesAdded (db.closeAccount companyId periodEnd assignment),
          db.closeAccount companyId periodEnd assignment) := by
  simp only [closeAssignment, Db.closeAccount]
  refine (Tx.run_query (q := .versionEffectiveOn assignment.policyId periodEnd) rfl).trans ?_
  have hskip : (Except.ok (created, db) : Except Error (Int × Db))
      = .ok (created + db.entriesAdded db, db) := by
    rw [Db.entriesAdded_self, Int.add_zero]
  cases db.catalog.versionEffectiveOn assignment.policyId periodEnd with
  | none => exact hskip
  | some version =>
    dsimp only
    split
    · exact hskip
    · exact (Tx.run_query rfl).trans (run_posts _ created db)

/-- And so does the loop over the assignments. -/
theorem run_closeAssignments (companyId : String) (periodEnd : Date) (created : Int)
    (assignments : List PolicyAssignment) (db : Db) :
    Tx.run (assignments.foldlM (closeAssignment companyId periodEnd) created) db
      = .ok (created + db.entriesAdded (db.closeAccounts companyId periodEnd assignments),
          db.closeAccounts companyId periodEnd assignments) := by
  induction assignments generalizing created db with
  | nil =>
    show Except.ok (created, db) = Except.ok (created + db.entriesAdded db, db)
    rw [Db.entriesAdded_self, Int.add_zero]
  | cons a rest ih =>
    rw [List.foldlM_cons]
    refine (Program.exec_bind_of_ok (run_closeAssignment companyId periodEnd created a db)).trans ?_
    refine (ih _ _).trans ?_
    rw [Int.add_assoc, Db.entriesAdded_trans]
    rfl

/-- Run alone, the rollover closes the covering assignments in turn. -/
theorem run_run (companyId : String) (asOf : Date) (db : Db) :
    Tx.run (run companyId asOf) db =
      let db' := db.closeAccounts companyId (closingDay asOf)
        (db.catalog.assignmentsCovering companyId none (closingDay asOf))
      let outcome : JobRun := ⟨companyId, .ROLLOVER, isoformat (closingDay asOf), "SUCCESS",
        0 + db.entriesAdded db'⟩
      .ok (outcome, db'.recordRun outcome) := by
  refine (Tx.run_query (q := .assignmentsCovering companyId none (closingDay asOf)) rfl).trans ?_
  exact Program.exec_bind_of_ok (run_closeAssignments companyId (closingDay asOf) 0 _ db)

end RolloverService

end TimeOff
