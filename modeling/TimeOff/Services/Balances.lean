import TimeOff.Database

/-!
# Balance service

`list_balances` reads every category of a company for one employee: the ledger
is summed afresh, the hold comes from the snapshot if there is one. It writes
nothing, so it is a function of the state.

A category that no policy covers on the day has a row of zeros, any other the
row of its policy's account. The policy and its version of the day are looked up
and used without asking whether there are any: where a policy has an assignment
on a day but no version yet, the listing of all categories fails (`policyRow`).
-/

namespace TimeOff

open Gregorian

/-- The categories of a company, by name. -/
def Catalog.categoriesByName (c : Catalog) (companyId : String) : List TimeOffCategory :=
  (c.categories.rows.filter fun category => category.companyId = companyId).insertionSort
    fun a b => a.name ≤ b.name

/-- `assignment.policy` -/
def Catalog.policy (c : Catalog) (id : Uuid) : Option Policy :=
  c.policies.rows.find? fun policy => policy.id = id

namespace BalanceService

/-- A row of the listing. -/
structure BalanceRow where
  categoryId : Uuid
  categoryName : String
  hasPolicy : Bool
  policyId : Option Uuid
  policyName : Option String
  isUnlimited : Bool
  balanceMinutes : Int
  pendingHoldMinutes : Int
  availableMinutes : Int
  dayMinutes : Int
deriving DecidableEq, Repr

/-- The row of a category no policy covers. -/
def noPolicyRow (category : TimeOffCategory) (dayMinutes : Int) : BalanceRow where
  categoryId := category.id
  categoryName := category.name
  hasPolicy := false
  policyId := none
  policyName := none
  isUnlimited := false
  balanceMinutes := 0
  pendingHoldMinutes := 0
  availableMinutes := 0
  dayMinutes := dayMinutes

/-- The row of a category with an assignment. Both the policy and the version
are used without a guard. -/
def policyRow (db : Db) (employeeId : String) (onDate : Date) (category : TimeOffCategory)
    (dayMinutes : Int) (assignment : PolicyAssignment) : Except Error BalanceRow :=
  let account : Account := ⟨employeeId, assignment.policyId⟩
  let version := db.catalog.versionEffectiveOn assignment.policyId onDate
  let balance := db.ledger.balance account none
  let pending := ((db.snapshots.find? account).map (·.pendingHoldMinutes)).getD 0
  match db.catalog.policy assignment.policyId, version with
  | some policy, some version => .ok
    { categoryId := category.id
      categoryName := category.name
      hasPolicy := true
      policyId := some assignment.policyId
      policyName := some policy.name
      isUnlimited := version.kind = .UNLIMITED
      balanceMinutes := balance
      pendingHoldMinutes := pending
      availableMinutes := balance - pending
      dayMinutes := dayMinutes }
  | _, _ => .error .type

/-- The row of one category. -/
def categoryRow (db : Db) (companyId employeeId : String) (onDate : Date) (dayMinutes : Int)
    (category : TimeOffCategory) : Except Error BalanceRow := do
  match ← db.catalog.assignmentForCategory companyId employeeId category.id onDate with
  | none => return noPolicyRow category dayMinutes
  | some assignment => policyRow db employeeId onDate category dayMinutes assignment

/-- `list_balances` -/
def listBalances (dir : Directory) (db : Db) (companyId employeeId : String) (onDate : Date) :
    Except Error (List BalanceRow) := do
  let employee ← dir.employee employeeId
  (db.catalog.categoriesByName companyId).mapM
    (categoryRow db companyId employeeId onDate employee.workMinutesPerDay)

end BalanceService

end TimeOff
