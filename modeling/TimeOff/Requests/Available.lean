import TimeOff.Requests.Lifecycle
import TimeOff.Services.Balances

/-!
# Two ways to read a balance

The listing sums the ledger, a preview trusts the snapshot or creates one.
Operations run one at a time keep the snapshots exact, so in every reachable
state the two report the same available minutes (**`balances_agree`**).

The listing goes over the categories, so what it reports is stated of its rows:
a row with a policy has the minutes of the account of that policy
(`categoryRow_ok`, `available_of_mem`). A preview is charged to the policy of
one category, and reports the snapshot's minutes (`preview_cases`). The two meet
in `Db.available`. That the listing is the same again after a preview has
created a snapshot is a fact of its own (`listBalances_preview`): an absent hold
and a hold of zero read the same.
-/

namespace TimeOff

open Gregorian

namespace BalanceService

variable {dir : Directory} {db : Db} {companyId employeeId : String} {onDate : Date}
  {dayMinutes : Int} {category : TimeOffCategory} {assignment : PolicyAssignment}
  {row : BalanceRow} {rows : List BalanceRow}

/-- The row of a policy is for its category, and has the minutes of its account. -/
theorem policyRow_ok
    (h : policyRow db employeeId onDate category dayMinutes assignment = .ok row) :
    row.categoryId = category.id ∧ row.policyId = some assignment.policyId ∧
      row.availableMinutes = db.available ⟨employeeId, assignment.policyId⟩ := by
  unfold policyRow at h
  dsimp only at h
  split at h
  · cases h
    exact ⟨rfl, rfl, rfl⟩
  · cases h

/-- A row is for its category, and what it has available is the account's. -/
theorem categoryRow_ok
    (h : categoryRow db companyId employeeId onDate dayMinutes category = .ok row) :
    row.categoryId = category.id ∧ ∀ policyId ∈ row.policyId,
      row.availableMinutes = db.available ⟨employeeId, policyId⟩ := by
  obtain ⟨found, -, h⟩ := Except.bind_eq_ok.mp h
  cases found with
  | none =>
    cases h
    exact ⟨rfl, nofun⟩
  | some assignment =>
    obtain ⟨hcategory, hpolicy, havailable⟩ := policyRow_ok h
    refine ⟨hcategory, fun policyId hmem => ?_⟩
    rw [hpolicy] at hmem
    cases hmem
    exact havailable

/-- So every row with a policy has the minutes of its account. -/
theorem available_of_mem (h : listBalances dir db companyId employeeId onDate = .ok rows)
    (hrow : row ∈ rows) {policyId : Uuid} (hpolicy : row.policyId = some policyId) :
    row.availableMinutes = db.available ⟨employeeId, policyId⟩ := by
  obtain ⟨employee, -, h⟩ := Except.bind_eq_ok.mp h
  obtain ⟨category, -, hok⟩ := Except.exists_of_mem_mapM h hrow
  exact (categoryRow_ok hok).2 policyId hpolicy

/-- The listing depends on the catalog, the ledger and the holds only. -/
theorem listBalances_congr {db' : Db} (hcatalog : db'.catalog = db.catalog)
    (hledger : db'.ledger = db.ledger) (hhold : ∀ a, db'.hold a = db.hold a) :
    listBalances dir db' companyId employeeId onDate
      = listBalances dir db companyId employeeId onDate := by
  have hpolicy : ∀ category dayMinutes assignment,
      policyRow db' employeeId onDate category dayMinutes assignment
        = policyRow db employeeId onDate category dayMinutes assignment := by
    intro category dayMinutes assignment
    have hpending := hhold ⟨employeeId, assignment.policyId⟩
    unfold Db.hold at hpending
    simp only [policyRow, hcatalog, hledger, hpending]
  unfold listBalances categoryRow
  simp only [hcatalog, hpolicy]

end BalanceService

namespace RequestService

variable {dir : Directory} {fields : RequestFields} {lockBalance : Bool} {db db' : Db}
  {result : Preview}

/-- What a preview reports, and what it leaves behind: at most a new snapshot. -/
theorem preview_cases (h : Tx.run (preview dir fields lockBalance) db = .ok (result, db')) :
    Resolves dir fields db result.toResolved ∧
      result.availableMinutes
        = (db.snapshotOf (result.account fields.employeeId)).balanceMinutes
          - (db.snapshotOf (result.account fields.employeeId)).pendingHoldMinutes ∧
      db' = db.ensureSnapshot (result.account fields.employeeId) := by
  obtain ⟨r, db₁, hr, hcheck⟩ := Program.exec_bind_ok.mp h
  obtain ⟨hres, rfl⟩ := resolve_cases hr
  obtain ⟨rfl, -, havailable, rfl, -⟩ := checkBalance_cases hcheck
  exact ⟨hres, havailable, rfl⟩

/-- A preview does not change what is listed, even where it creates a snapshot. -/
theorem listBalances_preview (h : Tx.run (preview dir fields lockBalance) db = .ok (result, db'))
    (companyId employeeId : String) (onDate : Date) :
    BalanceService.listBalances dir db' companyId employeeId onDate
      = BalanceService.listBalances dir db companyId employeeId onDate := by
  obtain ⟨-, -, rfl⟩ := preview_cases h
  exact BalanceService.listBalances_congr rfl rfl fun _ => Db.hold_ensureSnapshot

end RequestService

/-- In every reachable state, a category listed with a policy and a preview that
is charged to the same policy have the same minutes available, on whatever dates
the two are asked for. -/
theorem balances_agree {dir : Directory} {db db' : Db} (h : Reachable dir db)
    {companyId : String} {onDate : Date} {fields : RequestFields} {lockBalance : Bool}
    {rows : List BalanceService.BalanceRow} {row : BalanceService.BalanceRow}
    {result : RequestService.Preview}
    (hlist : BalanceService.listBalances dir db companyId fields.employeeId onDate = .ok rows)
    (hrow : row ∈ rows)
    (hpreview : Tx.run (RequestService.preview dir fields lockBalance) db = .ok (result, db'))
    (hpolicy : row.policyId = some result.assignment.policyId) :
    row.availableMinutes = result.availableMinutes := by
  obtain ⟨-, havailable, -⟩ := RequestService.preview_cases hpreview
  have hexact := (snapshotsExact_iff.mp h.snapshotsExact) (result.account fields.employeeId)
  rw [havailable, hexact.available]
  exact BalanceService.available_of_mem hlist hrow hpolicy

namespace Demo

/-- Ada has accrued two days and asked for one of them. -/
def oneOfTwoDays : List Op :=
  monthlyDay none ++
    [ .runScheduled "cmp_warp_demo" (ofYmd 2026 2 28), dayOff requestId (ofYmd 2026 3 2) ]

/-- A state, what is listed in it and what a preview returns. -/
structure BothReads where
  db : Db
  rows : List BalanceService.BalanceRow
  result : RequestService.Preview
  after : Db

/-- The listing of one day, and the preview of another. -/
def readBoth : Except Error BothReads := do
  let (_, db) ← Op.runAll directory oneOfTwoDays .empty
  let rows ← BalanceService.listBalances directory db "cmp_warp_demo" "emp_ada" (ofYmd 2026 3 1)
  let (result, after) ← Tx.run (RequestService.preview directory
    { employeeId := "emp_ada", categoryId := categoryId, startDate := ofYmd 2026 3 9
      endDate := ofYmd 2026 3 9 } false) db
  return ⟨db, rows, result, after⟩

theorem readBoth_ok {r : BothReads} (h : readBoth = .ok r) :
    Reachable directory r.db ∧
      BalanceService.listBalances directory r.db "cmp_warp_demo" "emp_ada" (ofYmd 2026 3 1)
        = .ok r.rows ∧
      Tx.run (RequestService.preview directory
        { employeeId := "emp_ada", categoryId := categoryId, startDate := ofYmd 2026 3 9
          endDate := ofYmd 2026 3 9 } false) r.db = .ok (r.result, r.after) := by
  obtain ⟨⟨l, db⟩, hrun, h⟩ := Except.bind_eq_ok.mp h
  obtain ⟨rows, hrows, h⟩ := Except.bind_eq_ok.mp h
  obtain ⟨⟨result, after⟩, hresult, h⟩ := Except.bind_eq_ok.mp h
  cases h
  exact ⟨⟨l, run_of_runAll hrun⟩, hrows, hresult⟩

end Demo

/-- Both report the day that is left. -/
theorem held_day_unavailable :
    ∃ r, Demo.readBoth = .ok r ∧ ∃ row ∈ r.rows, row.availableMinutes = 480 ∧
      row.availableMinutes = r.result.availableMinutes := by
  have hrun : Demo.readBoth.passes (fun r => ∃ row ∈ r.rows,
      row.policyId = some r.result.assignment.policyId ∧ row.availableMinutes = 480) = true := by
    decide +kernel
  obtain ⟨r, hr, htest⟩ := Except.ok_of_passes hrun
  obtain ⟨row, hrow, hpolicy, hleft⟩ := of_decide_eq_true htest
  obtain ⟨hreach, hlist, hpreview⟩ := Demo.readBoth_ok hr
  exact ⟨r, hr, row, hrow, hleft, balances_agree hreach hlist hrow hpreview hpolicy⟩

end TimeOff
