import TimeOff.Eligibility.Categories
import TimeOff.Isolation.Operations
import TimeOff.Services.Balances

/-!
# When balances can be listed

The listing uses the version in force of every assignment it meets, without
asking whether there is one. At most one assignment of a category covers a day,
so the only way to fail is an assignment that begins before its policy does
(`lists_iff`). Nothing stops an operation from opening one: a run can list
balances throughout exactly when none of its operations does
(**`lists_throughout_iff`**).

The invariant is `StartsInForce`: on its first day, every assignment has a
version of its policy in force. Versions are never removed and one that has
begun stays begun, so the version is there on every later day as well, and the
listing of any day goes through. Where the invariant fails, the listing of that
first day fails.

For runs, what an operation opens is read off its result (`CatalogOp.opens`):
the assignments whose employee, policy and first day no earlier row has. All of
them begin on the date that the caller gave (`starts_of_run`), which is why the
condition on an operation can be stated before it runs.
-/

namespace TimeOff

open Gregorian

/-- Some version of the policy has begun. -/
def Catalog.InForce (c : Catalog) (policyId : Uuid) (day : Date) : Prop :=
  ∃ v ∈ c.versions.rows, v.policyId = policyId ∧ v.effectiveFrom ≤ day

instance (c : Catalog) (policyId : Uuid) (day : Date) : Decidable (c.InForce policyId day) :=
  inferInstanceAs (Decidable (∃ v ∈ c.versions.rows, _))

namespace Catalog

variable {c d : Catalog} {policyId : Uuid} {day later : Date}

/-- Then the lookup finds one. -/
theorem inForce_iff :
    c.InForce policyId day ↔ ∃ v, c.versionEffectiveOn policyId day = some v := by
  constructor
  · rintro ⟨v, hv, hpolicy, hbegun⟩
    have hmem : v ∈ c.versions.rows.filter fun v =>
        v.policyId = policyId ∧ v.effectiveFrom ≤ day :=
      List.mem_filter.mpr ⟨hv, decide_eq_true ⟨hpolicy, hbegun⟩⟩
    exact Option.isSome_iff_exists.mp
      (List.isSome_maxOn?_of_mem (f := fun v : PolicyVersion => v.effectiveFrom) hmem)
  · rintro ⟨v, hv⟩
    obtain ⟨hmem, hpolicy, hbegun, -⟩ := versionEffectiveOn_spec hv
    exact ⟨v, hmem, hpolicy, hbegun⟩

/-- What is in force stays in force. -/
theorem InForce.mono (h : c.InForce policyId day) (hle : day ≤ later) :
    c.InForce policyId later := by
  obtain ⟨v, hv, hpolicy, hbegun⟩ := h
  exact ⟨v, hv, hpolicy, hbegun.trans hle⟩

/-- And versions are not removed. -/
theorem InForce.grows (h : c.InForce policyId day) (hcd : c.Grows d) : d.InForce policyId day := by
  obtain ⟨v, hv, hrest⟩ := h
  exact ⟨v, hcd.subset hv, hrest⟩

/-- Every assignment begins when its policy has. -/
def StartsInForce (c : Catalog) : Prop :=
  ∀ a ∈ c.assignments.rows, c.InForce a.policyId a.effectiveFrom

/-! ## One state

A row of the listing is computed from an assignment and its version. The version
lookup has no guard, so the row fails exactly where the assignment covers a day
on which its policy has none. -/

/-- Assignments that cover one day, of one employee and category, are one. -/
theorem assignmentForCategory_ok (companyId employeeId : String) (categoryId : Uuid) (day : Date) :
    ∃ found, c.assignmentForCategory companyId employeeId categoryId day = .ok found := by
  have hapart : (c.assignments.rows.filter fun a =>
      a.companyId = companyId ∧ a.employeeId = employeeId ∧ a.categoryId = categoryId ∧
        a.Covers day).Pairwise fun a b => ¬ a.Conflicts b := c.assignments.holds.apart.filter _
  have hcovers : ∀ a ∈ c.assignments.rows.filter fun a =>
      a.companyId = companyId ∧ a.employeeId = employeeId ∧ a.categoryId = categoryId ∧
        a.Covers day, a.employeeId = employeeId ∧ a.categoryId = categoryId ∧ a.Covers day :=
    fun a ha => (of_decide_eq_true (List.mem_filter.mp ha).2).2
  simp only [assignmentForCategory]
  cases hrows : c.assignments.rows.filter fun a =>
      a.companyId = companyId ∧ a.employeeId = employeeId ∧ a.categoryId = categoryId ∧
        a.Covers day with
  | nil => exact ⟨none, rfl⟩
  | cons a rest =>
    cases rest with
    | nil => exact ⟨some a, rfl⟩
    | cons b rest =>
      -- both cover the day, so they are in conflict
      rw [hrows] at hapart hcovers
      obtain ⟨hea, hca, ha⟩ := hcovers a (List.mem_cons_self ..)
      obtain ⟨heb, hcb, hb⟩ := hcovers b (List.mem_cons_of_mem _ (List.mem_cons_self ..))
      have hconflict : a.Conflicts b :=
        PolicyAssignment.conflicts_of_covers (hea.trans heb.symm) (hca.trans hcb.symm) ha hb
      exact absurd hconflict (List.rel_of_pairwise_cons hapart (List.mem_cons_self ..))

/-- An assignment is found on the days it covers. -/
theorem assignmentForCategory_of_covers {a : PolicyAssignment} (ha : a ∈ c.assignments.rows)
    (hday : a.Covers day) :
    c.assignmentForCategory a.companyId a.employeeId a.categoryId day = .ok (some a) := by
  obtain ⟨found, hfound⟩ := assignmentForCategory_ok (c := c) a.companyId a.employeeId
    a.categoryId day
  have hmem : a ∈ c.assignments.rows.filter fun b =>
      b.companyId = a.companyId ∧ b.employeeId = a.employeeId ∧ b.categoryId = a.categoryId ∧
        b.Covers day := List.mem_filter.mpr ⟨ha, decide_eq_true ⟨rfl, rfl, rfl, hday⟩⟩
  rw [hfound]
  simp only [assignmentForCategory] at hfound
  generalize (c.assignments.rows.filter fun b =>
      b.companyId = a.companyId ∧ b.employeeId = a.employeeId ∧ b.categoryId = a.categoryId ∧
        b.Covers day) = rows at hmem hfound
  match rows, hfound with
  | [], _ => cases hmem
  | [b], hfound =>
    cases hfound
    rw [List.mem_singleton.mp hmem]

end Catalog

namespace BalanceService

/-- Every known employee's balances can be listed on every day, with one row for
each category of the company. -/
def Lists (dir : Directory) (db : Db) : Prop :=
  ∀ companyId, ∀ employee ∈ dir.employees.rows, ∀ onDate,
    ∃ rows, listBalances dir db companyId employee.id onDate = .ok rows ∧
      (rows.map (·.categoryId)).Perm
        ((db.catalog.categories.rows.filter fun category =>
          category.companyId = companyId).map (·.id))

variable {dir : Directory} {db : Db}

/-- A policy with a company is stored. -/
theorem exists_policy {c : Catalog} {policyId : Uuid} {company : String}
    (h : c.policyCompany policyId = some company) : ∃ policy, c.policy policyId = some policy := by
  obtain ⟨policy, hpolicy, -⟩ := Option.map_eq_some_iff.mp h
  exact ⟨policy, hpolicy⟩

/-- The row of a category with an assignment needs the version. -/
theorem policyRow_ok_iff {employeeId : String} {onDate : Date} {category : TimeOffCategory}
    {dayMinutes : Int} {a : PolicyAssignment} {company : String}
    (hpolicy : db.catalog.policyCompany a.policyId = some company) :
    (∃ row, policyRow db employeeId onDate category dayMinutes a = .ok row) ↔
      db.catalog.InForce a.policyId onDate := by
  obtain ⟨policy, hpolicy⟩ := exists_policy hpolicy
  rw [Catalog.inForce_iff]
  unfold policyRow
  rw [hpolicy]
  cases db.catalog.versionEffectiveOn a.policyId onDate with
  | none => exact ⟨fun ⟨_, h⟩ => (nomatch h), fun ⟨_, h⟩ => (nomatch h)⟩
  | some v => exact ⟨fun _ => ⟨v, rfl⟩, fun _ => ⟨_, rfl⟩⟩

/-- A row is about its category. -/
theorem categoryId_of_ok {companyId employeeId : String} {onDate : Date} {dayMinutes : Int}
    {category : TimeOffCategory} {row : BalanceRow}
    (h : categoryRow db companyId employeeId onDate dayMinutes category = .ok row) :
    row.categoryId = category.id := by
  obtain ⟨found, -, h⟩ := Except.bind_eq_ok.mp h
  cases found with
  | none =>
    cases h
    rfl
  | some a =>
    simp only [policyRow] at h
    split at h
    · cases h
      rfl
    · cases h

/-- Where every assignment begins in force, every category has its row. -/
theorem exists_categoryRow (href : db.References dir) (hstarts : db.catalog.StartsInForce)
    (companyId employeeId : String) (onDate : Date) (dayMinutes : Int)
    (category : TimeOffCategory) :
    ∃ row, categoryRow db companyId employeeId onDate dayMinutes category = .ok row := by
  obtain ⟨found, hfound⟩ := db.catalog.assignmentForCategory_ok companyId employeeId category.id
    onDate
  cases found with
  | none => exact ⟨_, Except.bind_eq_ok.mpr ⟨none, hfound, rfl⟩⟩
  | some a =>
    obtain ⟨hmem, hfilter⟩ := List.mem_filter.mp (mem_of_scalarOneOrNone hfound)
    obtain ⟨-, -, -, hcovers⟩ := of_decide_eq_true hfilter
    obtain ⟨⟨hpolicy, -⟩, -⟩ := href.catalog.assignments a hmem
    have hforce : db.catalog.InForce a.policyId onDate := (hstarts a hmem).mono hcovers.1
    have hrow : ∃ row, policyRow db employeeId onDate category dayMinutes a = .ok row :=
      (policyRow_ok_iff hpolicy).mpr hforce
    obtain ⟨row, hrow⟩ := hrow
    exact ⟨row, Except.bind_eq_ok.mpr ⟨some a, hfound, hrow⟩⟩

/-- So all balances can be listed. -/
theorem lists_of_startsInForce (href : db.References dir) (hstarts : db.catalog.StartsInForce) :
    Lists dir db := by
  intro companyId employee hemployee onDate
  have hknown : dir.employee employee.id = .ok employee := by
    simp only [Directory.employee]
    rw [Table.find?_eq_some.mpr ⟨hemployee, rfl⟩]
  obtain ⟨rows, hrows⟩ := Except.exists_mapM_ok
    fun category (_ : category ∈ db.catalog.categoriesByName companyId) =>
      exists_categoryRow href hstarts companyId employee.id onDate employee.workMinutesPerDay
        category
  refine ⟨rows, Except.bind_eq_ok.mpr ⟨employee, hknown, hrows⟩, ?_⟩
  have hids : rows.map (·.categoryId)
      = (db.catalog.categoriesByName companyId).map (·.id) := by
    have hall := ((Except.mapM_eq_ok.mp hrows).imp fun _ _ h => categoryId_of_ok h).flip
    rw [← List.forall₂_eq_eq_eq, List.forall₂_map_left_iff, List.forall₂_map_right_iff]
    exact hall
  rw [hids]
  exact (List.perm_insertionSort _ _).map _

/-- And where one does not, the listing of its first day fails. -/
theorem startsInForce_of_lists (href : db.References dir) (hlists : Lists dir db) :
    db.catalog.StartsInForce := by
  intro a ha
  obtain ⟨⟨hpolicy, hemployee⟩, hcategory⟩ := href.catalog.assignments a ha
  obtain ⟨employee, hfind, -⟩ := Option.map_eq_some_iff.mp hemployee
  obtain ⟨hmem, hid⟩ := Table.find?_eq_some.mp hfind
  obtain ⟨category, hcat, hcatId, hcompany⟩ := ownerOf_eq_some hcategory
  obtain ⟨rows, hrows, -⟩ := hlists a.companyId employee hmem a.effectiveFrom
  obtain ⟨_, -, hrows⟩ := Except.bind_eq_ok.mp hrows
  have hlisted : category ∈ db.catalog.categoriesByName a.companyId :=
    (List.mem_insertionSort _).mpr (List.mem_filter.mpr ⟨hcat, decide_eq_true hcompany⟩)
  obtain ⟨row, hrow⟩ := Except.exists_of_mapM_ok hrows hlisted
  obtain ⟨found, hfound, hrow⟩ := Except.bind_eq_ok.mp hrow
  have hcovers : a.Covers a.effectiveFrom :=
    ⟨le_rfl, fun last hlast => db.catalog.assignments.holds.ordered a ha last hlast⟩
  have hown := Catalog.assignmentForCategory_of_covers ha hcovers
  rw [hid, hcatId, hown] at hfound
  cases hfound
  exact (policyRow_ok_iff hpolicy).mp ⟨row, hrow⟩

/-- Balances can be listed exactly when every assignment begins in force. -/
theorem lists_iff (href : db.References dir) : Lists dir db ↔ db.catalog.StartsInForce :=
  ⟨startsInForce_of_lists href, lists_of_startsInForce href⟩

end BalanceService

/-! ## Opening assignments

Only what opens an assignment can begin before its policy has a version in
force. Closing one, or another version, changes no beginning. -/

/-- Both are of one employee to one policy, from the same day. -/
def PolicyAssignment.SameStart (a b : PolicyAssignment) : Prop :=
  a.employeeId = b.employeeId ∧ a.policyId = b.policyId ∧ a.effectiveFrom = b.effectiveFrom

instance (a b : PolicyAssignment) : Decidable (a.SameStart b) :=
  inferInstanceAs (Decidable (_ ∧ _ ∧ _))

namespace CatalogOp

/-- The assignments an operation opens: none of the same employee and policy
began that day before. -/
def opens (dir : Directory) (c : Catalog) (op : CatalogOp) : List PolicyAssignment :=
  match op.run dir c with
  | .ok d => d.assignments.rows.filter fun a => ¬ ∃ b ∈ c.assignments.rows, a.SameStart b
  | .error _ => []

/-- The date a caller gives for new assignments. -/
def opensOn : CatalogOp → Option Date
  | .assign _ effectiveFrom _ => some effectiveFrom
  | op => op.audienceDate

/-- A change of audience opens assignments from its date on. -/
theorem opensOn_of_audienceDate {op : CatalogOp} {x : Date} (h : op.audienceDate = some x) :
    op.opensOn = some x := by
  cases op with
  | assign => cases h
  | _ => exact h

end CatalogOp

/-- An operation opens assignments only of policies that have begun. -/
def Op.OpensInForce (dir : Directory) (db : Db) : Op → Prop
  | .catalog op => ∀ a ∈ op.opens dir db.catalog, db.catalog.InForce a.policyId a.effectiveFrom
  | _ => True

instance (dir : Directory) (db : Db) (op : Op) : Decidable (op.OpensInForce dir db) := by
  unfold Op.OpensInForce
  split <;> infer_instance

/-- Every assignment afterwards began the same way before, or begins on `x`. -/
def StartsKept (x : Date) (c d : Catalog) : Prop :=
  ∀ a ∈ d.assignments.rows, (∃ b ∈ c.assignments.rows, a.SameStart b) ∨ a.effectiveFrom = x

namespace StartsKept

variable {x : Date} {c d e : Catalog}

/-- Operations that only end assignments open none. -/
theorem of_eq (h : d.assignments = c.assignments) : StartsKept x c d :=
  fun a ha => .inl ⟨a, h ▸ ha, rfl, rfl, rfl⟩

theorem trans (hcd : StartsKept x c d) (hde : StartsKept x d e) : StartsKept x c e := by
  intro a ha
  rcases hde a ha with ⟨b, hb, hemployee, hpolicy, hstart⟩ | hx
  · rcases hcd b hb with ⟨b', hb', hemployee', hpolicy', hstart'⟩ | hx
    · exact .inl ⟨b', hb', hemployee.trans hemployee', hpolicy.trans hpolicy',
        hstart.trans hstart'⟩
    · exact .inr (hstart.trans hx)
  · exact .inr hx

/-- A reconciliation opens assignments from its date on. -/
theorem reconcilePolicy {dir : Directory} {newId : Uuid → String → Uuid} {policy : Policy}
    (h : GroupService.reconcilePolicy dir x newId policy c = .ok d) : StartsKept x c d := by
  intro a ha
  rcases (GroupService.mem_reconciled h).mp ha with ⟨ha, -⟩ | ⟨b, hb, -, -, rfl⟩ | ⟨id, -, rfl⟩
  · exact .inl ⟨a, ha, rfl, rfl, rfl⟩
  · exact .inl ⟨b, hb, rfl, rfl, rfl⟩
  · exact .inr rfl

end StartsKept

/-- Only an operation that is given a date opens assignments, and it opens them
from that date on; it leaves the versions as they are. -/
theorem starts_of_run {dir : Directory} {op : CatalogOp} {c d : Catalog} (h : op.run dir c = .ok d)
    {a : PolicyAssignment} (ha : a ∈ d.assignments.rows) :
    (∃ b ∈ c.assignments.rows, a.SameStart b) ∨
      op.opensOn = some a.effectiveFrom ∧ d.versions = c.versions := by
  cases (CatalogOp.onAssignments h).1 with
  | kept hassignments => exact .inl ⟨a, hassignments ▸ ha, rfl, rfl, rfl⟩
  | added hop hpolicy hrows hversions =>
    subst hop
    rw [hrows, List.mem_append] at ha
    rcases ha with ha | ha
    · exact .inl ⟨a, ha, rfl, rfl, rfl⟩
    · obtain ⟨e, -, rfl⟩ := List.mem_map.mp ha
      exact .inr ⟨rfl, hversions⟩
  | ended hrows =>
    rw [hrows] at ha
    obtain ⟨b, hb, rfl⟩ := List.mem_map.mp ha
    refine .inl ⟨b, hb, ?_⟩
    split <;> exact ⟨rfl, rfl, rfl⟩
  | @reconciled x hdate hversions =>
    -- a reconciliation opens what it opens on the change date
    obtain ⟨policies, newId, c₁, c₂, hbefore, hreconciled, hafter, -⟩ := reconciles_of_run hdate h
    have hkept : StartsKept x c₁ c₂ := GroupService.reconcilePolicies_rel (fun c => .of_eq rfl)
      StartsKept.trans StartsKept.reconcilePolicy hreconciled
    rcases ((StartsKept.of_eq hbefore).trans hkept).trans (.of_eq hafter) a ha with hsame | rfl
    · exact .inl hsame
    · exact .inr ⟨CatalogOp.opensOn_of_audienceDate hdate, hversions⟩

/-- What an operation opens, row by row. -/
theorem CatalogOp.mem_opens {dir : Directory} {c d : Catalog} {op : CatalogOp}
    (h : op.run dir c = .ok d) {a : PolicyAssignment} :
    a ∈ op.opens dir c ↔ a ∈ d.assignments.rows ∧ ¬ ∃ b ∈ c.assignments.rows, a.SameStart b := by
  simp only [opens]
  rw [h, List.mem_filter, decide_eq_true_eq]

namespace Catalog.StartsInForce

variable {dir : Directory} {c d : Catalog} {op : CatalogOp}

/-- Opening assignments in force keeps all of them in force. -/
theorem run (hc : c.StartsInForce) (h : op.run dir c = .ok d)
    (hopens : ∀ a ∈ op.opens dir c, c.InForce a.policyId a.effectiveFrom) : d.StartsInForce := by
  intro a ha
  have hgrows := CatalogOp.grows h
  by_cases hsame : ∃ b ∈ c.assignments.rows, a.SameStart b
  · obtain ⟨b, hb, -, hpolicy, hstart⟩ := hsame
    rw [hpolicy, hstart]
    exact (hc b hb).grows hgrows
  · exact (hopens a ((CatalogOp.mem_opens h).mpr ⟨ha, hsame⟩)).grows hgrows

/-- What is in force afterwards was opened in force. -/
theorem opens (hd : d.StartsInForce) (h : op.run dir c = .ok d) :
    ∀ a ∈ op.opens dir c, c.InForce a.policyId a.effectiveFrom := by
  intro a ha
  obtain ⟨hmem, hnew⟩ := (CatalogOp.mem_opens h).mp ha
  obtain ⟨v, hv, hrest⟩ := hd a hmem
  have hversions := ((starts_of_run h hmem).resolve_left hnew).2
  exact ⟨v, hversions ▸ hv, hrest⟩

end Catalog.StartsInForce

/-- A step that opens assignments in force keeps the invariant. -/
theorem startsInForce_of_step {dir : Directory} {db db' : Db} {op : Op}
    (hstarts : db.catalog.StartsInForce) (hguard : op.OpensInForce dir db)
    (h : Step dir db op db') : db'.catalog.StartsInForce := by
  have heffect := effect_of_step h
  cases op with
  | catalog op =>
    cases heffect with
    | catalog hrun => exact hstarts.run hrun hguard
  | _ =>
    rw [heffect.catalog_eq not_false]
    exact hstarts

/-- And one that keeps the invariant opened them in force. -/
theorem opensInForce_of_step {dir : Directory} {db db' : Db} {op : Op}
    (hstarts : db'.catalog.StartsInForce) (h : Step dir db op db') : op.OpensInForce dir db := by
  have heffect := effect_of_step h
  cases op with
  | catalog op =>
    cases heffect with
    | catalog hrun => exact hstarts.opens hrun
  | _ => trivial

/-- **Listing is total while policies begin first**: balances can be listed for
every known employee and day in every state of a run, with one row for each
category, exactly when every operation opens assignments only of policies that
have begun by then. -/
theorem lists_throughout_iff {dir : Directory} {l : List (Db × Op × Db)} {db : Db}
    (h : Run dir .empty l db) :
    (∀ x ∈ l, BalanceService.Lists dir x.2.2) ↔ ∀ x ∈ l, x.2.1.OpensInForce dir x.1 := by
  have hempty : BalanceService.Lists dir .empty :=
    (BalanceService.lists_iff .empty).mpr fun a ha => absurd ha List.not_mem_nil
  refine h.guard_iff (fun db => db.References dir) ⟨.empty, hempty⟩ ?_ ?_
  · rintro db op db' ⟨href, hlists⟩ hguard hstep
    obtain ⟨_, -, hchange⟩ := change_of_step href hstep
    have hstarts := (BalanceService.lists_iff href).mp hlists
    exact ⟨hchange.references, (BalanceService.lists_iff hchange.references).mpr
      (startsInForce_of_step hstarts hguard hstep)⟩
  · rintro db op db' ⟨href, -⟩ hstep hlists
    obtain ⟨_, -, hchange⟩ := change_of_step href hstep
    exact opensInForce_of_step ((BalanceService.lists_iff hchange.references).mp hlists) hstep

namespace Demo

/-- Ada is given a policy from `first`, whose only version begins in 2026. -/
def assignedFrom (first : Date) : List Op :=
  [ .catalog (.createCategory ⟨categoryId, "cmp_warp_demo", "Vacation"⟩),
    .catalog (.createPolicy "cmp_warp_demo" policyId versionId "Core vacation" categoryId
      { effectiveFrom := ofYmd 2026 1 1, kind := .UNLIMITED } []),
    .catalog (.assign policyId first [("emp_ada", assignmentId)]) ]

end Demo

/-- With an assignment from 2026 on, all balances can be listed. -/
theorem listed_throughout :
    ∃ l db, Run Demo.directory .empty l db ∧
      l.map (·.2.1) = Demo.assignedFrom (ofYmd 2026 1 1) ∧
      ∀ x ∈ l, BalanceService.Lists Demo.directory x.2.2 := by
  have hrun : (Op.runAll Demo.directory (Demo.assignedFrom (ofYmd 2026 1 1)) .empty).passes
      (fun r => ∀ x ∈ r.1, x.2.1.OpensInForce Demo.directory x.1) = true := by decide +kernel
  obtain ⟨⟨l, db⟩, hops, htest⟩ := Except.ok_of_passes hrun
  have h := run_of_runAll hops
  exact ⟨l, db, h, ops_of_runAll hops, (lists_throughout_iff h).mpr (of_decide_eq_true htest)⟩

/-- With an assignment from June 2025 on, the listing of July 2025 fails on the
missing version. -/
theorem early_assignment_unlisted :
    ∃ db, Reachable Demo.directory db ∧
      BalanceService.listBalances Demo.directory db "cmp_warp_demo" "emp_ada" (ofYmd 2025 7 1)
        = .error .type := by
  have hrun : (Op.runAll Demo.directory (Demo.assignedFrom (ofYmd 2025 6 1)) .empty).passes
      (fun r => BalanceService.listBalances Demo.directory r.2 "cmp_warp_demo" "emp_ada"
        (ofYmd 2025 7 1) = .error .type) = true := by decide +kernel
  obtain ⟨⟨l, db⟩, hops, htest⟩ := Except.ok_of_passes hrun
  exact ⟨db, ⟨l, run_of_runAll hops⟩, of_decide_eq_true htest⟩

end TimeOff
