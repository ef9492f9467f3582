import TimeOff.Eligibility.Settled
import TimeOff.Lib.Delivery
import TimeOff.Lib.Versions
import TimeOff.Requests.Holidays

/-!
# Requests that arrive twice

A client without an answer sends its request again. Setting an audience, a
membership or a holiday again is accepted, and finds everything as it should be;
what adds a row or moves a request on is refused the second time, by a
constraint of the database or by the state the first one left
(`repeats_answered`). So it makes no difference how often in a row a request
arrives (`redelivery_harmless`).

`Again` says which requests are the same: a repetition may come with other
generated keys and on another day, and has everything else in common. The
operations divide by `Sets` into those that say how things should be and those
that say what to add or to do, and each kind has its own argument:

- for the first, the state that the operation leaves is a fixed point of it: an
  audience that is settled has nothing to open or end (`Eligibility.Settled`), a
  holiday that is stored is replaced by itself;
- for the second, the row that the first request has written stands in the way
  of the second: a taken name, a version that is not later than itself, an
  assignment of the same days, a request that overlaps itself, a status that is
  no longer pending.

The library about deliveries turns this into a statement about whole sequences.
-/

namespace TimeOff

open Gregorian

/-- The request arrives again: nothing but generated keys and the day it is
handled on may differ. -/
inductive CatalogOp.Again : CatalogOp → CatalogOp → Prop
  | createCategory (category : TimeOffCategory) (id : Uuid) :
      Again (.createCategory category) (.createCategory { category with id := id })
  | createPolicy {companyId name : String} {policyId policyId' versionId versionId' : Uuid}
      {categoryId : Uuid} {fields : VersionFields} {rules rules' : List AccrualRule}
      (hrules : rules'.map (·.toRuleFields) = rules.map (·.toRuleFields)) :
      Again (.createPolicy companyId policyId versionId name categoryId fields rules)
        (.createPolicy companyId policyId' versionId' name categoryId fields rules')
  | updatePolicy {policyId versionId versionId' : Uuid} {name : Option String}
      {fields : VersionFields} {rules rules' : List AccrualRule}
      (hrules : rules'.map (·.toRuleFields) = rules.map (·.toRuleFields)) :
      Again (.updatePolicy policyId versionId name fields rules)
        (.updatePolicy policyId versionId' name fields rules')
  | assign {policyId : Uuid} {effectiveFrom : Date} {employees employees' : List (String × Uuid)}
      (hsome : employees ≠ []) (hsame : employees'.map Prod.fst = employees.map Prod.fst) :
      Again (.assign policyId effectiveFrom employees) (.assign policyId effectiveFrom employees')
  | endAssignment (assignmentId : Uuid) (effectiveTo : Date) :
      Again (.endAssignment assignmentId effectiveTo) (.endAssignment assignmentId effectiveTo)
  | createGroup (companyId : String) (id id' : Uuid) (name : String) (employeeIds : List String) :
      Again (.createGroup companyId id name employeeIds)
        (.createGroup companyId id' name employeeIds)
  | setPolicyAudience (policyId : Uuid) (allEmployees : Bool) (groupIds : List Uuid)
      (effectiveFrom : Date) (newId newId' : Uuid → String → Uuid) :
      Again (.setPolicyAudience policyId allEmployees groupIds effectiveFrom newId)
        (.setPolicyAudience policyId allEmployees groupIds effectiveFrom newId')
  | replaceMembers (groupId : Uuid) (employeeIds : List String) (effectiveFrom : Date)
      (newId newId' : Uuid → String → Uuid) :
      Again (.replaceMembers groupId employeeIds effectiveFrom newId)
        (.replaceMembers groupId employeeIds effectiveFrom newId')
  | setEmployeeGroup (companyId employeeId : String) (groupId : Option Uuid) (effectiveFrom : Date)
      (newId newId' : Uuid → String → Uuid) :
      Again (.setEmployeeGroup companyId employeeId groupId effectiveFrom newId)
        (.setEmployeeGroup companyId employeeId groupId effectiveFrom newId')
  | removeGroup (groupId : Uuid) (today today' : Date) (newId newId' : Uuid → String → Uuid) :
      Again (.removeGroup groupId today newId) (.removeGroup groupId today' newId')
  | addHoliday (holiday : Holiday) : Again (.addHoliday holiday) (.addHoliday holiday)
  | ensureYear (companyId : String) (statutory : List (Date × String)) :
      Again (.ensureYear companyId statutory) (.ensureYear companyId statutory)

/-- The same for all operations. -/
inductive Op.Again : Op → Op → Prop
  | catalog {op again : CatalogOp} (h : op.Again again) : Again (.catalog op) (.catalog again)
  | submit (actor : Employee) (id id' : Uuid) (reason : String) (fields : RequestFields) :
      Again (.submit actor id reason fields) (.submit actor id' reason fields)
  | decide (actor : Employee) (requestId : Uuid) (approve : Bool) (note : Option String) :
      Again (.decide actor requestId approve note) (.decide actor requestId approve note)
  | cancel (actor : Employee) (requestId : Uuid) (today today' : Date) :
      Again (.cancel actor requestId today) (.cancel actor requestId today')

/-- The operation says how things should be. The others say what to add or what
to do. -/
def CatalogOp.Sets : CatalogOp → Prop
  | .setPolicyAudience .. | .replaceMembers .. | .setEmployeeGroup .. | .addHoliday _
  | .ensureYear .. => True
  | _ => False

/-- The operations of requests and the jobs do something. -/
def Op.Sets : Op → Prop
  | .catalog op => op.Sets
  | _ => False

/-! ## What is accepted again

One lemma for each operation that says how things should be, by what the modules
above say about writing it a second time. -/

/-- A holiday that is entered again replaces itself. -/
theorem HolidayService.addHoliday_again {c d : Catalog} {holiday : Holiday}
    (h : addHoliday c holiday = .ok d) : addHoliday d holiday = .ok d := by
  obtain ⟨holidays, hrun, hrows⟩ := addHoliday_run c holiday
  obtain rfl := Except.ok.inj (hrun.symm.trans h)
  obtain ⟨again, hagain, hsame⟩ := addHoliday_run { c with holidays := holidays } holiday
  have heq : again.rows = holidays.rows := by
    rw [hsame]
    show Keyed.upsert Holiday.key holidays.rows holiday = holidays.rows
    rw [hrows, Keyed.upsert_upsert]
  rw [hagain, Relation.eq_of_rows heq]

/-- A year that is refreshed again has its holidays. -/
theorem HolidayService.ensureYear_again {c d : Catalog} {companyId : String}
    {statutory : List (Date × String)} (h : ensureYear c companyId statutory = .ok d) :
    ensureYear d companyId statutory = .ok d := by
  obtain ⟨holidays, hrun, hrows⟩ := ensureYear_run c companyId statutory
  obtain rfl := Except.ok.inj (hrun.symm.trans h)
  obtain ⟨again, hagain, hsame⟩ :=
    ensureYear_run { c with holidays := holidays } companyId statutory
  have heq : again.rows = holidays.rows := by
    rw [hsame]
    show Keyed.fills Holiday.key holidays.rows _ = holidays.rows
    rw [hrows, Keyed.fills_fills]
  rw [hagain, Relation.eq_of_rows heq]

/-- With distinct ids, a lookup finds just the row of the id. -/
theorem findOr404_eq_ok {ρ : Type} {rows : List ρ} {id : ρ → Uuid} {wanted : Uuid}
    {detail : String} {r : ρ} (hnodup : (rows.map id).Nodup) :
    findOr404 rows id wanted detail = .ok r ↔ r ∈ rows ∧ id r = wanted := by
  constructor
  · intro h
    exact ⟨mem_of_findOr404 h, id_of_findOr404 h⟩
  · rintro ⟨hr, rfl⟩
    have hfind : (rows.find? fun s => id s = id r) = some r :=
      Table.find?_eq_some (t := ⟨rows, hnodup⟩).mpr ⟨hr, rfl⟩
    simp only [findOr404]
    rw [hfind]

/-- What says how things should be is accepted again and changes nothing. -/
theorem CatalogOp.again_accepted {dir : Directory} {c d : Catalog} {op again : CatalogOp}
    (h : op.run dir c = .ok d) (hagain : op.Again again) (hsets : op.Sets) :
    again.run dir d = .ok d := by
  cases hagain with
  | setPolicyAudience policyId allEmployees groupIds effectiveFrom newId newId' =>
    obtain ⟨policy, hfind, h⟩ := Except.bind_eq_ok.mp h
    obtain ⟨hpolicy, hid⟩ := (findOr404_eq_ok c.policies.holds.1).mp hfind
    have hstored := GroupService.setPolicyAudience_stored h hpolicy
    exact Except.bind_eq_ok.mpr ⟨_, (findOr404_eq_ok d.policies.holds.1).mpr ⟨hstored, hid⟩,
      GroupService.setPolicyAudience_again h⟩
  | replaceMembers groupId employeeIds effectiveFrom newId newId' =>
    obtain ⟨group, hfind, h⟩ := Except.bind_eq_ok.mp h
    refine Except.bind_eq_ok.mpr ⟨group, ?_, GroupService.replaceMembers_again h⟩
    obtain ⟨_, _, rfl⟩ := GroupService.replaceMembers_eq h
    exact hfind
  | setEmployeeGroup companyId employeeId groupId effectiveFrom newId newId' =>
    exact GroupService.setEmployeeGroup_again h
  | addHoliday holiday => exact HolidayService.addHoliday_again h
  | ensureYear companyId statutory => exact HolidayService.ensureYear_again h
  | _ => exact hsets.elim

/-! ## What is refused again

A refusal has one of three grounds: a name or a date that is taken, a row that
is gone, or a status that has moved on. -/

theorem NamedOnce.taken {ρ : Type} {id : ρ → Uuid} {companyId name : ρ → String} {rows : List ρ}
    {r s : ρ} (h : NamedOnce id companyId name (rows ++ [s])) (hr : r ∈ rows)
    (hcompany : companyId s = companyId r) : name s ≠ name r := by
  intro hname
  have hnodup := h.2
  rw [List.map_append, List.map_singleton] at hnodup
  refine (List.nodup_append.mp hnodup).2.2 _ (List.mem_map_of_mem hr) _
    (List.mem_singleton.mpr rfl) ?_
  rw [hcompany, hname]

/-- An update that was made is not later than itself. -/
theorem PolicyService.update_once {c d e : Catalog} {policy policy' : Policy}
    {versionId versionId' : Uuid} {name : Option String} {fields : VersionFields}
    {rules rules' : List AccrualRule}
    (h : update c policy versionId name fields rules = .ok d) (hid : policy'.id = policy.id) :
    update d policy' versionId' name fields rules' ≠ .ok e := by
  intro hagain
  obtain ⟨current, hcurrent, -, v, hpolicy, hno, hfields, -, hrows⟩ := update_cases h
  obtain ⟨latest, hlatest, hlater, -⟩ := update_cases hagain
  have hnew : d.latestVersion policy'.id = some v := by
    have hversions : (d.versions.rows.filter fun w => w.policyId = policy'.id)
        = (c.versions.rows.filter fun w => w.policyId = policy.id) ++ [v] := by
      rw [hrows, hid, List.filter_append]
      simp [hpolicy]
    simp only [Catalog.latestVersion] at hcurrent ⊢
    refine hversions ▸ Versions.maxOn?_append_of_lt fun w hw => ?_
    have hle := List.le_apply_get_maxOn?_of_mem (f := fun w : PolicyVersion => w.versionNo) hw
    rw [Option.get_of_eq_some _ hcurrent] at hle
    omega
  obtain rfl := Option.some.inj (hnew.symm.trans hlatest)
  rw [hfields] at hlater
  exact lt_irrefl _ hlater

/-- The name of a policy is taken by the first. -/
theorem PolicyService.create_once {c d e : Catalog} {companyId name : String}
    {policyId policyId' versionId versionId' categoryId : Uuid} {fields : VersionFields}
    {rules rules' : List AccrualRule}
    (h : create c companyId policyId versionId name categoryId fields rules = .ok d) :
    create d companyId policyId' versionId' name categoryId fields rules' ≠ .ok e := by
  intro hagain
  obtain ⟨-, policies, hpolicies, h⟩ := create_ok h
  obtain ⟨_, versions, rfl, -⟩ := addVersion_ok h
  obtain ⟨-, policies', hpolicies', -⟩ := create_ok hagain
  have hstored : (⟨policyId, companyId, categoryId, name, false⟩ : Policy) ∈ policies.rows := by
    rw [hpolicies]
    exact List.mem_append_right _ (List.mem_singleton.mpr rfl)
  exact (hpolicies' ▸ policies'.holds).taken hstored rfl rfl

/-- An employee who has the policy from a day on cannot get it from that day on. -/
theorem AssignmentService.assign_once {dir : Directory} {c d e : Catalog} {policy : Policy}
    {effectiveFrom : Date} {employees employees' : List (String × Uuid)}
    (h : assign dir policy effectiveFrom employees c = .ok d) (hsome : employees ≠ [])
    (hsame : employees'.map Prod.fst = employees.map Prod.fst) :
    assign dir policy effectiveFrom employees' d ≠ .ok e := by
  intro hagain
  obtain ⟨-, assignments, rfl, hrows⟩ := assign_ok h
  obtain ⟨-, assignments', rfl, hrows'⟩ := assign_ok hagain
  obtain ⟨employee, rest, rfl⟩ := List.exists_cons_of_ne_nil hsome
  obtain ⟨employee', rest', rfl, hemployee, -⟩ := List.map_eq_cons_iff.mp hsame
  have hstored : opened policy effectiveFrom employee ∈ assignments.rows := by
    rw [hrows]
    exact List.mem_append_right _ (List.mem_map_of_mem (List.mem_cons_self ..))
  have happart := assignments'.holds.apart
  rw [hrows'] at happart
  refine (List.pairwise_append.mp happart).2.2 _ hstored _
    (List.mem_map_of_mem (List.mem_cons_self ..)) ?_
  have hcovers : ∀ e, (opened policy effectiveFrom e).Covers effectiveFrom :=
    fun _ => covers_opened.mpr le_rfl
  exact PolicyAssignment.conflicts_of_covers hemployee.symm rfl (hcovers _) (hcovers _)

/-- An assignment that has ended cannot be ended. -/
theorem AssignmentService.endAssignment_once {c d e : Catalog} {a a' : PolicyAssignment}
    {effectiveTo : Date} (h : endAssignment c a effectiveTo = .ok d)
    (ha' : a' ∈ d.assignments.rows) (hid : a'.id = a.id) :
    endAssignment d a' effectiveTo ≠ .ok e := by
  intro hagain
  obtain ⟨assignments, rfl, hrows⟩ := endAssignment_ok h
  have hended : a'.effectiveTo.isSome := by
    change a' ∈ assignments.rows at ha'
    rw [hrows] at ha'
    obtain ⟨row, -, rfl⟩ := List.mem_map.mp ha'
    split at hid
    · next hrow => rw [if_pos hrow]; rfl
    · next hrow => exact absurd hid hrow
  simp only [endAssignment] at hagain
  rw [if_pos hended] at hagain
  split at hagain <;> cases hagain

/-- The name of a group is taken by the first. -/
theorem GroupService.create_once {dir : Directory} {c d e : Catalog} {companyId name : String}
    {id id' : Uuid} {employeeIds : List String}
    (h : create c dir companyId id name employeeIds = .ok d) :
    create d dir companyId id' name employeeIds ≠ .ok e := by
  intro hagain
  obtain ⟨_, -, h⟩ := Except.bind_eq_ok.mp h
  obtain ⟨_, -, h⟩ := Except.bind_eq_ok.mp h
  obtain ⟨_, -, hagain⟩ := Except.bind_eq_ok.mp hagain
  obtain ⟨_, -, hagain⟩ := Except.bind_eq_ok.mp hagain
  dsimp only at h hagain
  split at h
  · cases h
  next hblank =>
  split at h
  · cases h
  obtain ⟨groups, hgroups, h⟩ := Except.bind_eq_ok.mp h
  obtain ⟨members, -, h⟩ := Except.bind_eq_ok.mp h
  cases h
  rw [if_neg hblank, if_pos] at hagain
  · cases hagain
  · refine ⟨⟨id, companyId, Text.strip name⟩, ?_, rfl, rfl⟩
    show _ ∈ groups.rows
    rw [rows_of_constrained hgroups]
    exact List.mem_append_right _ (List.mem_singleton.mpr rfl)

/-- A group that is removed is not there to be removed. -/
theorem GroupService.remove_once {dir : Directory} {c d : Catalog} {group group' : EmployeeGroup}
    {effectiveFrom : Date} {newId : Uuid → String → Uuid}
    (h : remove c dir group effectiveFrom newId = .ok d) (hgroup' : group' ∈ d.groups.rows) :
    group'.id ≠ group.id := by
  obtain ⟨_, -, h⟩ := Except.bind_eq_ok.mp h
  obtain ⟨_, -, h⟩ := Except.bind_eq_ok.mp h
  obtain ⟨groups, hgroups, h⟩ := Except.bind_eq_ok.mp h
  obtain ⟨_, -, h⟩ := Except.bind_eq_ok.mp h
  cases h
  change group' ∈ groups.rows at hgroup'
  rw [rows_of_constrained hgroups] at hgroup'
  exact of_decide_eq_true (List.mem_filter.mp hgroup').2

/-- What adds or does something on the catalog is refused the second time. -/
theorem CatalogOp.again_refused {dir : Directory} {c d e : Catalog} {op again : CatalogOp}
    (h : op.run dir c = .ok d) (hagain : op.Again again) (hsets : ¬ op.Sets) :
    again.run dir d ≠ .ok e := by
  intro h'
  cases hagain with
  | createCategory category id =>
    obtain ⟨categories, hcategories, h⟩ := Except.bind_eq_ok.mp h
    obtain ⟨categories', hcategories', -⟩ := Except.bind_eq_ok.mp h'
    cases h
    have hstored : category ∈ categories.rows := by
      rw [rows_of_constrained hcategories]
      exact List.mem_append_right _ (List.mem_singleton.mpr rfl)
    exact (rows_of_constrained hcategories' ▸ categories'.holds).taken hstored rfl rfl
  | createPolicy => exact PolicyService.create_once h h'
  | updatePolicy =>
    obtain ⟨policy, hfind, h⟩ := Except.bind_eq_ok.mp h
    obtain ⟨policy', hfind', h'⟩ := Except.bind_eq_ok.mp h'
    have hid := (id_of_findOr404 hfind').trans (id_of_findOr404 hfind).symm
    exact PolicyService.update_once h hid h'
  | assign hsome hsame =>
    obtain ⟨policy, hfind, h⟩ := Except.bind_eq_ok.mp h
    obtain ⟨policy', hfind', h'⟩ := Except.bind_eq_ok.mp h'
    obtain ⟨-, _, rfl, -⟩ := AssignmentService.assign_ok h
    obtain rfl := Except.ok.inj (hfind.symm.trans hfind')
    exact AssignmentService.assign_once h hsome hsame h'
  | endAssignment assignmentId effectiveTo =>
    obtain ⟨a, hfind, h⟩ := Except.bind_eq_ok.mp h
    obtain ⟨a', hfind', h'⟩ := Except.bind_eq_ok.mp h'
    have hid := (id_of_findOr404 hfind').trans (id_of_findOr404 hfind).symm
    exact AssignmentService.endAssignment_once h (mem_of_findOr404 hfind') hid h'
  | createGroup => exact GroupService.create_once h h'
  | removeGroup =>
    obtain ⟨group, hfind, h⟩ := Except.bind_eq_ok.mp h
    obtain ⟨group', hfind', -⟩ := Except.bind_eq_ok.mp h'
    have hid := (id_of_findOr404 hfind').trans (id_of_findOr404 hfind).symm
    exact GroupService.remove_once h (mem_of_findOr404 hfind') hid
  | _ => exact hsets trivial

section workflow

variable {dir : Directory} {db db' db'' : Db}

/-- The first request is live and overlaps the second. -/
theorem submit_once {actor : Employee} {id id' : Uuid} {reason : String} {fields : RequestFields}
    (h : Step dir db (.submit actor id reason fields) db') :
    ¬ Step dir db' (.submit actor id' reason fields) db'' := by
  intro h'
  cases effect_of_step h with
  | @submit _ _ _ _ r row hrow hres hnew =>
  cases effect_of_step h' with
  | submit _ hres' =>
  obtain ⟨employee, -, -, hdays⟩ := hres.employee
  obtain ⟨hrange, -⟩ := requestDays_spec employee.work_positive hdays
  subst hrow
  let row := RequestService.newRequest id actor.id reason fields r
  have hstored : row ∈ (db.afterSubmit row r.version.kind).requests.rows := by
    rw [Db.afterSubmit_requests]
    exact (Table.find?_eq_some.mp (Table.find?_insertNew_self (r := row) hnew)).1
  exact hres'.apart row hstored rfl rfl ⟨hrange, hrange⟩

/-- A decided request is no longer pending. -/
theorem decide_once {actor : Employee} {requestId : Uuid} {approve : Bool} {note : Option String}
    (h : Step dir db (.decide actor requestId approve note) db') :
    ¬ Step dir db' (.decide actor requestId approve note) db'' := by
  intro h'
  cases effect_of_step h with
  | decide hfind =>
  cases effect_of_step h' with
  | decide hfind' hpending' =>
  rw [Db.afterDecide_requests, (Table.find?_eq_some.mp hfind).2] at hfind'
  obtain rfl := Option.some.inj ((Table.find?_modify_self hfind).symm.trans hfind')
  cases approve <;> cases hpending'

/-- A cancelled request is no longer live. -/
theorem cancel_once {actor : Employee} {requestId : Uuid} {today today' : Date}
    (h : Step dir db (.cancel actor requestId today) db') :
    ¬ Step dir db' (.cancel actor requestId today') db'' := by
  intro h'
  cases effect_of_step h with
  | cancel hfind =>
  cases effect_of_step h' with
  | cancel hfind' hlive' =>
  rw [Db.afterCancel_requests, (Table.find?_eq_some.mp hfind).2] at hfind'
  obtain rfl := Option.some.inj ((Table.find?_modify_self hfind).symm.trans hfind')
  cases hlive'

end workflow

/-- What adds or does something is refused the second time. -/
theorem Op.again_refused {dir : Directory} {db db' db'' : Db} {op again : Op}
    (h : Step dir db op db') (hagain : op.Again again) (hsets : ¬ op.Sets) :
    ¬ Step dir db' again db'' := by
  intro h'
  cases hagain with
  | catalog hagain =>
    cases effect_of_step h with
    | catalog hrun =>
    cases effect_of_step h' with
    | catalog hrun' => exact CatalogOp.again_refused hrun hagain hsets hrun'
  | submit => exact submit_once h h'
  | decide => exact decide_once h h'
  | cancel => exact cancel_once h h'

/-- And what says how things should be is accepted. -/
theorem Op.again_accepted {dir : Directory} {db db' : Db} {op again : Op}
    (h : Step dir db op db') (hagain : op.Again again) (hsets : op.Sets) :
    Step dir db' again db' := by
  cases hagain with
  | catalog hagain =>
    cases effect_of_step h with
    | catalog hrun =>
      simp only [Step, Op.run]
      rw [CatalogOp.again_accepted hrun hagain hsets]
      rfl
  | _ => exact hsets.elim

/-- **A repetition changes nothing**: a request that went through and arrives
again is accepted if it says how things should be, and finds them so; otherwise
it is refused. -/
theorem repeats_answered {dir : Directory} {db db' : Db} {op again : Op}
    (h : Step dir db op db') (hagain : op.Again again) :
    (op.Sets → again.run dir db' = .ok db') ∧
      (¬ op.Sets → ∃ e, again.run dir db' = .error e) := by
  refine ⟨Op.again_accepted h hagain, fun hsets => ?_⟩
  cases hrun : again.run dir db' with
  | ok db'' => exact absurd hrun (Op.again_refused h hagain hsets)
  | error e => exact ⟨e, rfl⟩

namespace Demo

/-- The audience of the interns' policy. -/
def setAudience (newId : Uuid → String → Uuid) : Op :=
  .catalog (.setPolicyAudience policyId false [groupId] (ofYmd 2026 1 1) newId)

/-- A category, the policy in it and the interns. -/
def interns : List Op := (groupPolicy (ofYmd 2026 1 1)).take 3

end Demo

/-- Ada got her assignment; a second request has none to make. -/
theorem audience_repeated :
    ∃ db, db.catalog.assignments.rows.length = 1 ∧
      Op.run Demo.directory (Demo.setAudience fun _ _ => Demo.nextAssignmentId) db = .ok db := by
  have hrun : ((Demo.setAudience fun _ _ => Demo.assignmentId).run Demo.directory
      (Demo.interns.foldl (Op.tried Demo.directory) .empty)).passes
        (fun db => db.catalog.assignments.rows.length = 1) = true := by
    decide +kernel
  obtain ⟨db, hstep, hone⟩ := Except.ok_of_passes hrun
  exact ⟨db, of_decide_eq_true hone, (repeats_answered hstep (.catalog
    (.setPolicyAudience _ _ _ _ _ fun _ _ => Demo.nextAssignmentId))).1 trivial⟩

/-- What a request leaves behind, its repetition leaves alone. -/
theorem attempt_again {dir : Directory} {db db' : Db} {op again : Op}
    (h : op.run dir db = .ok db') (hagain : op.Again again) :
    attempt (Op.run dir) db' again = db' := by
  simp only [attempt]
  by_cases hsets : op.Sets
  · rw [show again.run dir db' = .ok db' from Op.again_accepted h hagain hsets]
  · cases hrun : again.run dir db' with
    | ok db'' => exact absurd hrun (Op.again_refused h hagain hsets)
    | error e => rfl

/-- **Arriving several times is arriving once**: requests that go through in turn
lead to the same state when any of them arrive any number of times in a row. -/
theorem redelivery_harmless {dir : Directory} {sent arrived : List Op} {db db' : Db}
    (h : Redelivered Op.Again sent arrived)
    (hsent : sent.foldlM (fun db op => op.run dir db) db = .ok db') :
    arrived.foldl (Op.tried dir) db = db' := by
  rw [tried_eq_attempt]
  exact h.attempts_eq attempt_again hsent

/-- The interns' policy is set up, and its audience arrives three times: that is
where setting it up once leads, with the one assignment of Ada. -/
theorem interns_redelivered :
    ∃ db : Db, db.catalog.assignments.rows.length = 1 ∧
      (Demo.interns ++ [Demo.setAudience fun _ _ => Demo.assignmentId]).foldlM
        (fun db op => op.run Demo.directory db) .empty = .ok db ∧
      (Demo.interns ++ [Demo.setAudience fun _ _ => Demo.assignmentId,
        Demo.setAudience fun _ _ => Demo.nextAssignmentId,
        Demo.setAudience fun _ _ => Demo.otherAssignmentId]).foldl (Op.tried Demo.directory) .empty
        = db := by
  have hrun : ((Demo.interns ++ [Demo.setAudience fun _ _ => Demo.assignmentId]).foldlM
      (fun (db : Db) (op : Op) => op.run Demo.directory db) Db.empty).passes
        (fun db => db.catalog.assignments.rows.length = 1) = true := by
    decide +kernel
  obtain ⟨db, hsent, hone⟩ := Except.ok_of_passes hrun
  refine ⟨db, of_decide_eq_true hone, hsent, redelivery_harmless ?_ hsent⟩
  have hnever : ∀ {op : Op}, ∀ again ∈ ([] : List Op), op.Again again :=
    fun again h => absurd h List.not_mem_nil
  refine .cons [] hnever (.cons [] hnever (.cons [] hnever (.cons [_, _] ?_ .nil)))
  intro again hagain
  rcases List.mem_cons.mp hagain with rfl | hagain
  · exact .catalog (.setPolicyAudience ..)
  · cases List.mem_singleton.mp hagain
    exact .catalog (.setPolicyAudience ..)

end TimeOff
