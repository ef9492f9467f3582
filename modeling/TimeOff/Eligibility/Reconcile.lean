import TimeOff.System

/-!
# Reconciling a policy with its audience

`reconcile_policy` looks at the rows of the policy that cover the change date
and at nothing else. `reconcilePolicy_ok` says all it can do: rows of employees
outside the audience are cut on the eve of the change, or deleted if they begin
with it, and members of the audience that no row covers get an open one.

From it follow the two sides of an audience change: what holds from the change
date on (`eligible_from_iff`), and that everything before it stays
(`eligible_before`).

Both are read off the rows after a reconciliation (`mem_reconciled`): each is an
old row that the policy's audience leaves alone, an old row cut before the
change date, or a new one from that date on. A cut row covers the days it
covered before the change and no later ones, a new row no earlier ones, and that
is the past. Other policies keep all their rows.

Several policies are reconciled in turn, so what a single reconciliation keeps,
and what composes, holds of all of them (`reconcilePolicies_rel`).
-/

namespace TimeOff

open Gregorian

/-! ## Eligibility

How cutting a row on a day changes the days it covers: those before stay. -/

/-- An assignment of the policy covers the day. -/
def Catalog.Eligible (c : Catalog) (policyId : Uuid) (employeeId : String) (day : Date) : Prop :=
  ∃ a ∈ c.assignments.rows, a.policyId = policyId ∧ a.employeeId = employeeId ∧ a.Covers day

instance (c : Catalog) (policyId : Uuid) (employeeId : String) (day : Date) :
    Decidable (c.Eligible policyId employeeId day) :=
  inferInstanceAs (Decidable (∃ a ∈ c.assignments.rows, _))

namespace PolicyAssignment

/-- The row with its last day on the eve of `day`. -/
def cutBefore (a : PolicyAssignment) (day : Date) : PolicyAssignment :=
  { a with effectiveTo := some (day.addDays (-1)) }

variable {a : PolicyAssignment} {x day : Date}

/-- Only the last day of the row changes. -/
@[simp] theorem id_cutBefore : (a.cutBefore x).id = a.id := rfl

@[simp] theorem policyId_cutBefore : (a.cutBefore x).policyId = a.policyId := rfl

@[simp] theorem employeeId_cutBefore : (a.cutBefore x).employeeId = a.employeeId := rfl

/-- It covers the days before `day` that it covered. -/
theorem covers_cutBefore : (a.cutBefore x).Covers day ↔ a.effectiveFrom ≤ day ∧ day < x := by
  simp only [Covers, cutBefore, Option.mem_def, Option.some.injEq, forall_eq', Date.le_iff,
    Date.lt_iff, Date.ordinal_addDays]
  omega

/-- A row that covers `x` can be cut before `x` unless it begins there. -/
theorem ordered_cutBefore (h : a.Covers x) (hx : a.effectiveFrom ≠ x) :
    (a.cutBefore x).Ordered := by
  have hlt : a.effectiveFrom < x := lt_of_le_of_ne h.1 hx
  simp only [Ordered, cutBefore, Option.mem_def, Option.some.injEq, forall_eq', Date.le_iff,
    Date.ordinal_addDays]
  rw [Date.lt_iff] at hlt
  omega

end PolicyAssignment

/-! ## What `assign` and `reconcile_policy` do

Both as sets of rows: an assignment adds rows, a reconciliation cuts those of
outsiders that cover the change date, and adds one for each member that has
none. -/

namespace AssignmentService

/-- The row `assign` adds. -/
def opened (policy : Policy) (effectiveFrom : Date) (employee : String × Uuid) : PolicyAssignment :=
  { id := employee.2, companyId := policy.companyId, employeeId := employee.1
    policyId := policy.id, categoryId := policy.categoryId, effectiveFrom }

/-- It has no last day. -/
theorem covers_opened {policy : Policy} {x day : Date} {employee : String × Uuid} :
    (opened policy x employee).Covers day ↔ x ≤ day := by
  simp [opened, PolicyAssignment.Covers]

/-- Everything a successful `assign` does: known employees get a row each, in
the category of the policy. -/
theorem assign_ok {dir : Directory} {policy : Policy} {effectiveFrom : Date}
    {employees : List (String × Uuid)} {c d : Catalog}
    (h : assign dir policy effectiveFrom employees c = .ok d) :
    (∀ e ∈ employees, ∃ employee, dir.employees.find? e.1 = some employee ∧
      employee.companyId = policy.companyId) ∧
    ∃ assignments, d = { c with assignments := assignments } ∧
      assignments.rows = c.assignments.rows ++ employees.map (opened policy effectiveFrom) := by
  induction employees generalizing c with
  | nil =>
    cases h
    exact ⟨by simp, d.assignments, rfl, by simp⟩
  | cons e rest ih =>
    obtain ⟨employeeId, id⟩ := e
    simp only [assign] at h
    split at h
    · cases h
    next employee hfind =>
    split at h
    · cases h
    next hcompany =>
    split at h
    · cases h
    next assignments hset =>
    obtain ⟨hknown, assignments', rfl, hrows⟩ := ih h
    refine ⟨?_, assignments', rfl, ?_⟩
    · intro e he
      rcases List.mem_cons.mp he with rfl | he
      · exact ⟨employee, hfind, not_not.mp hcompany⟩
      · exact hknown e he
    · show assignments'.rows = _
      have hfirst := Relation.rows_of_set? hset
      rw [hrows]
      show assignments.rows ++ _ = _
      rw [hfirst, List.map_cons, List.append_assoc]
      rfl

end AssignmentService

namespace GroupService

open AssignmentService

/-- The employees of the audience that no row of the policy covers. -/
def missingEmployees (c : Catalog) (dir : Directory) (policy : Policy) (effectiveFrom : Date) :
    List String :=
  sortedSet ((audienceEmployeeIds c dir policy).filter fun id =>
    id ∉ (c.assignments.rows.filter fun a =>
      a.policyId = policy.id ∧ a.Covers effectiveFrom).map (·.employeeId))

/-- What becomes of a row: it is cut or deleted if it covers the change date
for an employee outside the audience. -/
def reconciledRow (policyId : Uuid) (audience : List String) (effectiveFrom : Date)
    (row : PolicyAssignment) : Option PolicyAssignment :=
  if row.policyId = policyId ∧ row.Covers effectiveFrom ∧ row.employeeId ∉ audience then
    if row.effectiveFrom = effectiveFrom then none else some (row.cutBefore effectiveFrom)
  else some row

variable {dir : Directory} {x : Date} {newId : Uuid → String → Uuid} {policy : Policy}
  {c d : Catalog}

/-- They are the members of the audience who are not eligible on the day. -/
theorem mem_missingEmployees {id : String} :
    id ∈ missingEmployees c dir policy x ↔
      id ∈ audienceEmployeeIds c dir policy ∧ ¬ c.Eligible policy.id id x := by
  simp only [missingEmployees, sortedSet, Catalog.Eligible]
  rw [List.mem_insertionSort, List.mem_eraseDups, List.mem_filter, decide_eq_true_eq]
  refine and_congr_right fun _ => not_congr ?_
  simp only [List.mem_map, List.mem_filter, decide_eq_true_eq]
  constructor
  · rintro ⟨a, ⟨ha, hp, hc⟩, he⟩
    exact ⟨a, ha, hp, he, hc⟩
  · rintro ⟨a, ha, hp, he, hc⟩
    exact ⟨a, ⟨ha, hp, hc⟩, he⟩

/-- Everything a successful reconciliation does. -/
theorem reconcilePolicy_ok (h : reconcilePolicy dir x newId policy c = .ok d) :
    (∀ id ∈ missingEmployees c dir policy x, ∃ employee, dir.employees.find? id = some employee ∧
      employee.companyId = policy.companyId) ∧
    ∃ assignments, d = { c with assignments := assignments } ∧
      assignments.rows =
        c.assignments.rows.filterMap (reconciledRow policy.id (audienceEmployeeIds c dir policy) x)
        ++ (missingEmployees c dir policy x).map fun id =>
          opened policy x (id, newId policy.id id) := by
  simp only [reconcilePolicy] at h
  obtain ⟨c', hassign, h⟩ := Except.bind_eq_ok.mp h
  obtain ⟨assignments, hrows, h⟩ := Except.bind_eq_ok.mp h
  cases h
  have hassign' : assign dir policy x ((missingEmployees c dir policy x).map fun id =>
      (id, newId policy.id id)) c = .ok c' := by
    simp only [asGroupError] at hassign
    split at hassign
    · cases hassign
    · exact hassign
  obtain ⟨hknown, assigned, rfl, hassigned⟩ := assign_ok hassign'
  refine ⟨fun id hid => hknown _ (List.mem_map_of_mem hid), assignments, rfl, ?_⟩
  have hunique := assigned.holds.id_unique
  rw [rows_of_constrained hrows]
  simp only [hassigned, List.map_map, List.map_append] at hunique ⊢
  rw [List.nodup_append] at hunique
  obtain ⟨hold, -, hapart⟩ := hunique
  -- a row is leaving when a leaving row has its id, since ids are unique
  have hleaving : ∀ row : PolicyAssignment,
      (((c.assignments.rows.filter fun a => a.policyId = policy.id ∧ a.Covers x).filter fun a =>
        a.employeeId ∉ audienceEmployeeIds c dir policy).any fun a => a.id = row.id) = true ↔
      ∃ a ∈ c.assignments.rows, a.id = row.id ∧ a.policyId = policy.id ∧ a.Covers x ∧
        a.employeeId ∉ audienceEmployeeIds c dir policy := by
    intro row
    simp only [List.any_eq_true, List.mem_filter, decide_eq_true_eq]
    constructor
    · rintro ⟨a, ⟨⟨ha, hp, hc⟩, he⟩, hid⟩
      exact ⟨a, ha, hid, hp, hc, he⟩
    · rintro ⟨a, ha, hid, hp, hc, he⟩
      exact ⟨a, ⟨⟨ha, hp, hc⟩, he⟩, hid⟩
  rw [List.filterMap_append]
  congr 1
  · refine List.filterMap_congr fun row hrow => ?_
    simp only [hleaving]
    show _ = if _ then _ else _
    by_cases hl : row.policyId = policy.id ∧ row.Covers x ∧
        row.employeeId ∉ audienceEmployeeIds c dir policy
    · rw [if_pos hl, if_neg (not_not.mpr ⟨row, hrow, rfl, hl⟩)]
      rfl
    · rw [if_neg hl, if_pos]
      rintro ⟨a, ha, hid, hp⟩
      exact hl (List.inj_on_of_nodup_map hold ha hrow hid ▸ hp)
  · have hkeep := List.map_id ((missingEmployees c dir policy x).map fun id =>
      opened policy x (id, newId policy.id id))
    refine Eq.trans ?_ hkeep
    refine List.filterMap_eq_map_iff_forall_eq_some.mpr fun row hrow => ?_
    simp only [hleaving]
    rw [if_pos]
    · rfl
    -- the generated ids are new
    · rintro ⟨a, ha, hid, -⟩
      obtain ⟨id, hmissing, rfl⟩ := List.mem_map.mp hrow
      exact hapart _ (List.mem_map_of_mem ha) _ (List.mem_map_of_mem hmissing) hid

/-- What becomes of the old rows. -/
theorem mem_reconciledRows {rows : List PolicyAssignment} {policyId : Uuid} {audience : List String}
    {a : PolicyAssignment} :
    a ∈ rows.filterMap (reconciledRow policyId audience x) ↔
      (a ∈ rows ∧ ¬ (a.policyId = policyId ∧ a.Covers x ∧ a.employeeId ∉ audience)) ∨
      ∃ b ∈ rows, (b.policyId = policyId ∧ b.Covers x ∧ b.employeeId ∉ audience) ∧
        b.effectiveFrom ≠ x ∧ a = b.cutBefore x := by
  rw [List.mem_filterMap]
  constructor
  · rintro ⟨b, hb, hrow⟩
    simp only [reconciledRow] at hrow
    split at hrow
    · next hleaving =>
      split at hrow
      · cases hrow
      · next hx =>
        cases hrow
        exact Or.inr ⟨b, hb, hleaving, hx, rfl⟩
    · next hstays =>
      cases hrow
      exact Or.inl ⟨hb, hstays⟩
  · rintro (⟨ha, hstays⟩ | ⟨b, hb, hleaving, hx, rfl⟩)
    · refine ⟨a, ha, ?_⟩
      simp only [reconciledRow]
      rw [if_neg hstays]
    · refine ⟨b, hb, ?_⟩
      simp only [reconciledRow]
      rw [if_pos hleaving, if_neg hx]

/-- The rows after a reconciliation: those that stay, those that are cut, and
the new ones. -/
theorem mem_reconciled (h : reconcilePolicy dir x newId policy c = .ok d) {a : PolicyAssignment} :
    a ∈ d.assignments.rows ↔
      (a ∈ c.assignments.rows ∧ ¬ (a.policyId = policy.id ∧ a.Covers x ∧
        a.employeeId ∉ audienceEmployeeIds c dir policy)) ∨
      (∃ b ∈ c.assignments.rows, (b.policyId = policy.id ∧ b.Covers x ∧
        b.employeeId ∉ audienceEmployeeIds c dir policy) ∧ b.effectiveFrom ≠ x ∧
        a = b.cutBefore x) ∨
      ∃ id ∈ missingEmployees c dir policy x, a = opened policy x (id, newId policy.id id) := by
  obtain ⟨-, assignments, rfl, hrows⟩ := reconcilePolicy_ok h
  show a ∈ assignments.rows ↔ _
  rw [hrows, List.mem_append, mem_reconciledRows, or_assoc, List.mem_map]
  simp only [eq_comm]

/-- Eligibility for one policy after its reconciliation. -/
theorem eligible_reconciled (h : reconcilePolicy dir x newId policy c = .ok d) {employeeId : String}
    {day : Date} :
    d.Eligible policy.id employeeId day ↔
      (∃ a ∈ c.assignments.rows, a.policyId = policy.id ∧ a.employeeId = employeeId ∧
        a.Covers day ∧ (day < x ∨ employeeId ∈ audienceEmployeeIds c dir policy ∨ ¬ a.Covers x)) ∨
      (x ≤ day ∧ employeeId ∈ missingEmployees c dir policy x) := by
  constructor
  · rintro ⟨a, ha, hp, he, hday⟩
    -- a row is one that stays, one that was cut, or a new one
    rcases (mem_reconciled h).mp ha with ⟨ha, hstays⟩ | ⟨b, hb, ⟨-, hx, -⟩, -, rfl⟩ | ⟨id, hid, rfl⟩
    · refine Or.inl ⟨a, ha, hp, he, hday, Or.inr ?_⟩
      by_contra hn
      rw [not_or, not_not] at hn
      exact hstays ⟨hp, hn.2, he ▸ hn.1⟩
    · obtain ⟨hfrom, hlt⟩ := PolicyAssignment.covers_cutBefore.mp hday
      have hbefore : b.Covers day :=
        ⟨hfrom, fun last hlast => le_trans hlt.le (hx.2 last hlast)⟩
      exact Or.inl ⟨b, hb, hp, he, hbefore, Or.inl hlt⟩
    · subst he
      exact Or.inr ⟨covers_opened.mp hday, hid⟩
  · rintro (⟨a, ha, hp, he, hday, hkept⟩ | ⟨hday, hid⟩)
    · by_cases hleaving : a.policyId = policy.id ∧ a.Covers x ∧
          a.employeeId ∉ audienceEmployeeIds c dir policy
      · -- the row of an outsider is cut, and covers the days before
        have hlt : day < x := by
          rcases hkept with hlt | hin | hx
          · exact hlt
          · exact absurd (he ▸ hin) hleaving.2.2
          · exact absurd hleaving.2.1 hx
        have hfrom : a.effectiveFrom ≠ x := ne_of_lt (lt_of_le_of_lt hday.1 hlt)
        exact ⟨a.cutBefore x,
          (mem_reconciled h).mpr (Or.inr (Or.inl ⟨a, ha, hleaving, hfrom, rfl⟩)),
          hp, he, PolicyAssignment.covers_cutBefore.mpr ⟨hday.1, hlt⟩⟩
      · exact ⟨a, (mem_reconciled h).mpr (Or.inl ⟨ha, hleaving⟩), hp, he, hday⟩
    · exact ⟨_, (mem_reconciled h).mpr (Or.inr (Or.inr ⟨employeeId, hid, rfl⟩)), rfl, rfl,
        covers_opened.mpr hday⟩

/-- Eligibility for the other policies stays. -/
theorem eligible_of_other (h : reconcilePolicy dir x newId policy c = .ok d) {policyId : Uuid}
    (hne : policyId ≠ policy.id) {employeeId : String} {day : Date} :
    d.Eligible policyId employeeId day ↔ c.Eligible policyId employeeId day := by
  constructor
  · rintro ⟨a, ha, rfl, he, hday⟩
    rcases (mem_reconciled h).mp ha with ⟨ha, -⟩ | ⟨b, -, ⟨hp, -⟩, -, rfl⟩ | ⟨id, -, rfl⟩
    · exact ⟨a, ha, rfl, he, hday⟩
    · exact absurd hp hne
    · exact absurd rfl hne
  · rintro ⟨a, ha, rfl, he, hday⟩
    exact ⟨a, (mem_reconciled h).mpr (Or.inl ⟨ha, fun hl => hne hl.1⟩), rfl, he, hday⟩

/-- Before the change date nothing changes. -/
theorem eligible_before (h : reconcilePolicy dir x newId policy c = .ok d) {policyId : Uuid}
    {employeeId : String} {day : Date} (hday : day < x) :
    d.Eligible policyId employeeId day ↔ c.Eligible policyId employeeId day := by
  by_cases hp : policyId = policy.id
  · subst hp
    rw [eligible_reconciled h]
    constructor
    · rintro (⟨a, ha, hp, he, hc, -⟩ | ⟨hx, -⟩)
      · exact ⟨a, ha, hp, he, hc⟩
      · exact absurd hday (not_lt.mpr hx)
    · rintro ⟨a, ha, hp, he, hc⟩
      exact Or.inl ⟨a, ha, hp, he, hc, Or.inl hday⟩
  · exact eligible_of_other h hp

/-- Ranges that are in order stay so, whatever the database checks. -/
theorem ordered_reconciled (h : reconcilePolicy dir x newId policy c = .ok d)
    (hc : ∀ a ∈ c.assignments.rows, a.Ordered) : ∀ a ∈ d.assignments.rows, a.Ordered := by
  intro a ha
  rcases (mem_reconciled h).mp ha with ⟨ha, -⟩ | ⟨b, -, ⟨-, hx, -⟩, hfrom, rfl⟩ | ⟨id, -, rfl⟩
  · exact hc a ha
  · exact PolicyAssignment.ordered_cutBefore hx hfrom
  · intro last hlast
    cases hlast

end GroupService

/-! ## Categories -/

/-- The policy is in the category. -/
def Catalog.Files (c : Catalog) (policyId categoryId : Uuid) : Prop :=
  ∃ p ∈ c.policies.rows, p.id = policyId ∧ p.categoryId = categoryId

/-- Every assignment is in the category of its policy. -/
def Catalog.Filed (c : Catalog) : Prop :=
  ∀ a ∈ c.assignments.rows, c.Files a.policyId a.categoryId

/-- A policy is in one category. -/
theorem Catalog.Files.eq {c : Catalog} {policyId x y : Uuid} (h : c.Files policyId x)
    (h' : c.Files policyId y) : x = y := by
  obtain ⟨p, hp, hid, rfl⟩ := h
  obtain ⟨q, hq, hid', rfl⟩ := h'
  have hsame := List.inj_on_of_nodup_map c.policies.holds.1 hp hq (hid.trans hid'.symm)
  rw [hsame]

namespace GroupService

/-- New rows are filed, and old ones stay so. -/
theorem filed_reconciled (h : reconcilePolicy dir x newId policy c = .ok d)
    (hpolicy : c.Files policy.id policy.categoryId) (hc : c.Filed) : d.Filed := by
  obtain ⟨-, assignments, hd, -⟩ := reconcilePolicy_ok h
  intro a ha
  have hfiled : c.Files a.policyId a.categoryId := by
    rcases (mem_reconciled h).mp ha with ⟨ha, -⟩ | ⟨b, hb, -, -, rfl⟩ | ⟨id, -, rfl⟩
    · exact hc a ha
    · exact hc b hb
    · exact hpolicy
  rw [hd]
  exact hfiled

/-! ## Several policies

A chain of reconciliations, one policy after the other, and what each of them
keeps. -/

/-- Reconciling policies in turn is a chain of reconciliations: what each of
them keeps, all keep. -/
theorem reconcilePolicies_rel {R : Catalog → Catalog → Prop} (hrefl : ∀ c, R c c)
    (htrans : ∀ {c d e}, R c d → R d e → R c e)
    (hstep : ∀ {policy c d}, reconcilePolicy dir x newId policy c = .ok d → R c d)
    {policies : List Policy} (h : reconcilePolicies dir x newId policies c = .ok d) : R c d := by
  simp only [reconcilePolicies] at h
  induction policies generalizing c with
  | nil =>
    cases h
    exact hrefl _
  | cons policy rest ih =>
    rw [List.foldlM_cons] at h
    obtain ⟨c', hfirst, h⟩ := Except.bind_eq_ok.mp h
    exact htrans (hstep hfirst) (ih h)

/-- Nothing but assignments changes. -/
theorem reconcilePolicies_ok {policies : List Policy}
    (h : reconcilePolicies dir x newId policies c = .ok d) :
    ∃ assignments, d = { c with assignments := assignments } := by
  refine reconcilePolicies_rel
    (R := fun c d => ∃ assignments, d = { c with assignments := assignments })
    (fun c => ⟨c.assignments, rfl⟩) ?_ ?_ h
  · rintro c d e ⟨_, rfl⟩ ⟨assignments, rfl⟩
    exact ⟨assignments, rfl⟩
  · intro policy c d hstep
    obtain ⟨-, assignments, hd, -⟩ := reconcilePolicy_ok hstep
    exact ⟨assignments, hd⟩

/-- And several reconciliations keep them so. -/
theorem filed_reconcilePolicies {policies : List Policy}
    (h : reconcilePolicies dir x newId policies c = .ok d)
    (hpolicies : ∀ p ∈ policies, c.Files p.id p.categoryId) (hc : c.Filed) : d.Filed := by
  simp only [reconcilePolicies] at h
  induction policies generalizing c with
  | nil =>
    cases h
    exact hc
  | cons policy rest ih =>
    rw [List.foldlM_cons] at h
    obtain ⟨c', hfirst, h⟩ := Except.bind_eq_ok.mp h
    have hfiled := filed_reconciled hfirst (hpolicies policy (List.mem_cons_self ..)) hc
    obtain ⟨-, assignments, rfl, -⟩ := reconcilePolicy_ok hfirst
    exact ih h (fun p hp => hpolicies p (List.mem_cons_of_mem _ hp)) hfiled

end GroupService

end TimeOff
