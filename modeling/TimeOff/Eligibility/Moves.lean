import TimeOff.Eligibility.Audience

/-!
# Moving one employee

`set_employee_group` changes one membership and reconciles every policy of the
old and the new group. A reconciliation recomputes the whole audience, so it
reaches other employees too, exactly where their rows on the change date
disagree with the audience (`sameRows_reconciled`). **`others_after_move`** says
this of the whole move.

The proof takes the move apart (`setEmployeeGroup_ok`): a change of one
membership, and a list of policies of which each occurs once, since the code
sorts its set of ids in three batches that have no policy in common
(`nodup_batches`). A reconciliation of one policy leaves the rows of the others
alone, so along the list the rows of an employee with a policy change once, if
at all (`sameRows_reconciledAll`), and for other employees the audience is the
same before and after the membership was changed (`mem_audience_of_members`).
-/

namespace TimeOff

open Gregorian

/-- Two states have the same assignments of an employee to a policy. -/
def Catalog.SameRows (c d : Catalog) (policyId : Uuid) (employeeId : String) : Prop :=
  ∀ a : PolicyAssignment, a.policyId = policyId → a.employeeId = employeeId →
    (a ∈ d.assignments.rows ↔ a ∈ c.assignments.rows)

namespace Catalog.SameRows

variable {c d e : Catalog} {policyId : Uuid} {employeeId : String}

/-- The same rows make for the same eligibility. -/
theorem eligible (h : c.SameRows d policyId employeeId) {day : Date} :
    d.Eligible policyId employeeId day ↔ c.Eligible policyId employeeId day := by
  constructor
  · rintro ⟨a, ha, hp, he, hday⟩
    exact ⟨a, (h a hp he).mp ha, hp, he, hday⟩
  · rintro ⟨a, ha, hp, he, hday⟩
    exact ⟨a, (h a hp he).mpr ha, hp, he, hday⟩

/-- Past a state with the same rows, sameness is the same. -/
theorem trans_iff (h : c.SameRows d policyId employeeId) :
    c.SameRows e policyId employeeId ↔ d.SameRows e policyId employeeId := by
  constructor
  · intro hce a hp he
    rw [hce a hp he, h a hp he]
  · intro hde a hp he
    rw [hde a hp he, h a hp he]

theorem trans_iff' (h : d.SameRows e policyId employeeId) :
    c.SameRows e policyId employeeId ↔ c.SameRows d policyId employeeId := by
  constructor
  · intro hce a hp he
    rw [← hce a hp he, h a hp he]
  · intro hcd a hp he
    rw [← hcd a hp he, h a hp he]

end Catalog.SameRows

namespace GroupService

open AssignmentService

variable {dir : Directory} {x : Date} {newId : Uuid → String → Uuid} {c d : Catalog}

/-- A reconciliation leaves the rows of an employee alone exactly when they
agree with the audience on the change date. -/
theorem sameRows_reconciled {policy : Policy} (h : reconcilePolicy dir x newId policy c = .ok d)
    {policyId : Uuid} {employeeId : String} :
    c.SameRows d policyId employeeId ↔ (policy.id = policyId →
      (employeeId ∈ audienceEmployeeIds c dir policy ↔ c.Eligible policy.id employeeId x)) := by
  constructor
  · rintro hsame rfl
    constructor
    · intro hin
      by_contra hnot
      have hmissing := mem_missingEmployees.mpr ⟨hin, hnot⟩
      -- a member without a row would get one
      have hopened :
          opened policy x (employeeId, newId policy.id employeeId) ∈ d.assignments.rows :=
        (mem_reconciled h).mpr (Or.inr (Or.inr ⟨employeeId, hmissing, rfl⟩))
      have hold := (hsame _ rfl rfl).mp hopened
      exact hnot ⟨_, hold, rfl, rfl, covers_opened.mpr le_rfl⟩
    · rintro ⟨a, ha, hp, rfl, hx⟩
      by_contra hout
      -- an outsider's row would end the day before
      rcases (mem_reconciled h).mp ((hsame a hp rfl).mpr ha) with
        ⟨-, hstays⟩ | ⟨b, -, -, -, rfl⟩ | ⟨id, hid, rfl⟩
      · exact hstays ⟨hp, hx, hout⟩
      · exact lt_irrefl _ (PolicyAssignment.covers_cutBefore.mp hx).2
      · exact hout (mem_missingEmployees.mp hid).1
  · intro hagree a hp he
    subst hp he
    constructor
    · intro ha
      rcases (mem_reconciled h).mp ha with
        ⟨ha, -⟩ | ⟨b, hb, ⟨hp, hx, hout⟩, -, rfl⟩ | ⟨id, hid, rfl⟩
      · exact ha
      · exact absurd ((hagree hp.symm).mpr ⟨b, hb, hp, rfl, hx⟩) hout
      · obtain ⟨hin, hnot⟩ := mem_missingEmployees.mp hid
        exact absurd ((hagree rfl).mp hin) hnot
    · intro ha
      refine (mem_reconciled h).mpr (Or.inl ⟨ha, ?_⟩)
      rintro ⟨hp, hx, hout⟩
      exact hout ((hagree hp.symm).mpr ⟨a, ha, hp, rfl, hx⟩)

/-- Several policies, each reconciled once: the rows with a policy are the same
exactly when they agree with its audience. -/
theorem sameRows_reconciledAll {policies : List Policy} (hnodup : (policies.map (·.id)).Nodup)
    (h : reconcilePolicies dir x newId policies c = .ok d) {policyId : Uuid} {employeeId : String} :
    c.SameRows d policyId employeeId ↔ ∀ p ∈ policies, p.id = policyId →
      (employeeId ∈ audienceEmployeeIds c dir p ↔ c.Eligible p.id employeeId x) := by
  simp only [reconcilePolicies] at h
  induction policies generalizing c with
  | nil =>
    cases h
    simp [Catalog.SameRows]
  | cons policy rest ih =>
    rw [List.foldlM_cons] at h
    obtain ⟨c', hfirst, h⟩ := Except.bind_eq_ok.mp h
    rw [List.map_cons, List.nodup_cons] at hnodup
    have hrest := ih hnodup.2 h
    have hstep : c.SameRows c' policyId employeeId ↔ (policy.id = policyId →
        (employeeId ∈ audienceEmployeeIds c dir policy ↔ c.Eligible policy.id employeeId x)) :=
      sameRows_reconciled hfirst
    by_cases hp : policy.id = policyId
    · -- the rest is about other policies
      have hsame : c'.SameRows d policyId employeeId := by
        refine hrest.mpr fun p hmem hid => ?_
        exact absurd (List.mem_map.mpr ⟨p, hmem, hid.trans hp.symm⟩) hnodup.1
      rw [hsame.trans_iff', hstep]
      constructor
      · intro hagree p hmem hid
        rcases List.mem_cons.mp hmem with rfl | hmem
        · exact hagree hid
        · exact absurd (List.mem_map.mpr ⟨p, hmem, hid.trans hp.symm⟩) hnodup.1
      · intro hall
        exact hall policy (List.mem_cons_self ..)
    · have hsame : c.SameRows c' policyId employeeId := hstep.mpr fun hid => absurd hid hp
      rw [hsame.trans_iff, hrest]
      constructor
      · intro hall p hmem hid
        rcases List.mem_cons.mp hmem with rfl | hmem
        · exact absurd hid hp
        · have hagree := hall p hmem hid
          rwa [audience_reconciled hfirst, hid, hsame.eligible, ← hid] at hagree
      · intro hall p hmem hid
        rw [audience_reconciled hfirst, hid, hsame.eligible, ← hid]
        exact hall p (List.mem_cons_of_mem _ hmem) hid

/-! ## The policies of a move

The code collects ids in three batches and sorts each. The rest is about the
audience: the membership that a move changes is that of one employee. -/

/-- The group an employee is in. -/
def currentGroup (c : Catalog) (companyId employeeId : String) : Option Uuid :=
  (c.members.rows.find? fun m =>
    m.companyId = companyId ∧ m.employeeId = employeeId).map (·.groupId)

/-- The policies a move to `groupId` reconciles: those of the old and the new
group, unless the two are one. -/
def movedPolicies (c : Catalog) (companyId employeeId : String) (groupId : Option Uuid) :
    List Policy :=
  let old := currentGroup c companyId employeeId
  if old.isSome ∧ old = groupId then []
  else c.policies.rows.filter fun p =>
    ∃ t ∈ c.targets.rows, t.policyId = p.id ∧ (some t.groupId = old ∨ some t.groupId = groupId)

theorem nodup_eraseDups {α : Type} [DecidableEq α] (l : List α) : l.eraseDups.Nodup := by
  induction hn : l.length using Nat.strong_induction_on generalizing l with
  | _ n ih =>
    cases l with
    | nil => simp
    | cons a rest =>
      rw [List.eraseDups_cons, List.nodup_cons]
      constructor
      · rw [List.mem_eraseDups]
        simp
      · refine ih _ ?_ _ rfl
        rw [← hn, List.length_cons]
        exact Nat.lt_succ_of_le (List.length_filter_le ..)

/-- The ids of one batch, in the order of their texts. -/
theorem mem_sortedIds {ids : List Uuid} {id : Uuid} :
    id ∈ ids.eraseDups.insertionSort (fun a b => a.text ≤ b.text) ↔ id ∈ ids := by
  rw [List.mem_insertionSort, List.mem_eraseDups]

theorem nodup_sortedIds (ids : List Uuid) :
    (ids.eraseDups.insertionSort fun a b => a.text ≤ b.text).Nodup :=
  (List.perm_insertionSort _ _).nodup_iff.mpr (nodup_eraseDups ids)

/-- Three batches without the policies of another batch list each id once. -/
theorem nodup_batches (old new : List Uuid) :
    (((old.filter (· ∉ new)).eraseDups.insertionSort fun a b => a.text ≤ b.text) ++
      ((old.filter (· ∈ new)).eraseDups.insertionSort fun a b => a.text ≤ b.text) ++
      ((new.filter (· ∉ old)).eraseDups.insertionSort fun a b => a.text ≤ b.text)).Nodup := by
  have hmem : ∀ {ids : List Uuid} {id : Uuid},
      id ∈ ids.eraseDups.insertionSort (fun a b => a.text ≤ b.text) → id ∈ ids :=
    fun h => mem_sortedIds.mp h
  rw [List.nodup_append, List.nodup_append]
  refine ⟨⟨nodup_sortedIds _, nodup_sortedIds _, ?_⟩, nodup_sortedIds _, ?_⟩
  · rintro a ha b hb rfl
    have hout := (List.mem_filter.mp (hmem ha)).2
    have hin := (List.mem_filter.mp (hmem hb)).2
    simp only [decide_eq_true_eq] at hout hin
    exact hout hin
  · rintro a ha b hb rfl
    have hout := (List.mem_filter.mp (hmem hb)).2
    rw [decide_eq_true_eq] at hout
    rcases List.mem_append.mp ha with ha | ha
    · exact hout (List.mem_filter.mp (hmem ha)).1
    · exact hout (List.mem_filter.mp (hmem ha)).1

/-- Looking policies up by id keeps the order, and misses none that is stored. -/
theorem nodup_lookups {c : Catalog} {ids : List Uuid} (h : ids.Nodup) :
    ((ids.filterMap fun id => c.policies.rows.find? fun p => p.id = id).map (·.id)).Nodup := by
  refine h.sublist ?_
  induction ids with
  | nil => simp
  | cons id rest ih =>
    have htail := ih (List.nodup_cons.mp h).2
    rw [List.filterMap_cons]
    cases hp : c.policies.rows.find? fun p => p.id = id with
    | none => exact htail.cons _
    | some p =>
      have hid : p.id = id := by simpa using List.find?_some hp
      rw [List.map_cons, hid]
      exact htail.cons_cons _

/-- What is looked up are the stored policies with these ids. -/
theorem mem_lookups {c : Catalog} {ids : List Uuid} {p : Policy} :
    p ∈ ids.filterMap (fun id => c.policies.rows.find? fun p => p.id = id) ↔
      p ∈ c.policies.rows ∧ p.id ∈ ids := by
  have hfind : ∀ id, (c.policies.rows.find? fun p => p.id = id) = some p ↔
      p ∈ c.policies.rows ∧ p.id = id := fun id =>
    Table.find?_eq_some (t := ⟨c.policies.rows, c.policies.holds.1⟩)
  rw [List.mem_filterMap]
  constructor
  · rintro ⟨id, hid, hp⟩
    obtain ⟨hmem, rfl⟩ := (hfind id).mp hp
    exact ⟨hmem, hid⟩
  · rintro ⟨hmem, hid⟩
    exact ⟨p.id, hid, (hfind p.id).mpr ⟨hmem, rfl⟩⟩

/-- The memberships after a move: the employee's in the company is replaced,
unless it is there already. -/
structure MovedMembers (c : Catalog) (dir : Directory) (companyId employeeId : String)
    (groupId : Option Uuid) (members : List EmployeeGroupMember) : Prop where
  joins : ∃ ids, employees dir companyId [employeeId] = .ok ids
  group : ∀ id ∈ groupId, ∃ g ∈ c.groups.rows, g.id = id ∧ g.companyId = companyId
  rows : members = c.members.rows ∨ members = (c.members.rows.filter fun m =>
      ¬ (m.companyId = companyId ∧ m.employeeId = employeeId)) ++
    groupId.toList.map fun id => ⟨id, employeeId, companyId⟩

/-- The memberships of other employees stay. -/
theorem MovedMembers.mem_iff {companyId employeeId : String} {groupId : Option Uuid}
    {members : List EmployeeGroupMember}
    (h : MovedMembers c dir companyId employeeId groupId members) {m : EmployeeGroupMember}
    (hm : m.employeeId ≠ employeeId) : m ∈ members ↔ m ∈ c.members.rows := by
  rcases h.rows with rfl | rfl
  · rfl
  · rw [List.mem_append, List.mem_filter, List.mem_map]
    simp only [decide_eq_true_eq]
    constructor
    · rintro (⟨hmem, -⟩ | ⟨id, -, rfl⟩)
      · exact hmem
      · exact absurd rfl hm
    · intro hmem
      exact Or.inl ⟨hmem, fun he => hm he.2⟩

/-- Everything a successful move does: it changes memberships of the employee,
and reconciles each of the policies above once. -/
theorem setEmployeeGroup_ok {companyId employeeId : String} {groupId : Option Uuid}
    (h : setEmployeeGroup c dir companyId employeeId groupId x newId = .ok d) :
    ∃ members policies, MovedMembers c dir companyId employeeId groupId members.rows ∧
      (∀ p, p ∈ policies ↔ p ∈ movedPolicies c companyId employeeId groupId) ∧
      (policies.map (·.id)).Nodup ∧
      reconcilePolicies dir x newId policies { c with members := members } = .ok d := by
  obtain ⟨ids, hjoins, h⟩ := Except.bind_eq_ok.mp h
  split at h
  · cases h
  next hknown =>
  have hgroup : ∀ id ∈ groupId, ∃ g ∈ c.groups.rows, g.id = id ∧ g.companyId = companyId := by
    simpa using hknown
  dsimp only at h
  split at h
  · next hsame =>
    cases h
    -- the employee is there already, and nothing is written
    refine ⟨c.members, [], ⟨⟨ids, hjoins⟩, hgroup, Or.inl rfl⟩, fun p => ?_, List.nodup_nil, rfl⟩
    unfold movedPolicies currentGroup
    rw [if_pos hsame]
  · next hmoved =>
    obtain ⟨members, hmembers, h⟩ := Except.bind_eq_ok.mp h
    have hrows := rows_of_constrained hmembers
    refine ⟨members, _, ⟨⟨ids, hjoins⟩, hgroup, Or.inr hrows⟩, ?_,
      nodup_lookups (nodup_batches _ _), h⟩
    · intro p
      unfold movedPolicies currentGroup
      rw [if_neg hmoved, mem_lookups, List.mem_filter, decide_eq_true_eq]
      refine and_congr_right fun _ => ?_
      -- the three batches: left only, left and joined, joined only
      simp only [List.mem_append, mem_sortedIds, List.mem_filter, List.mem_map, decide_eq_true_eq]
      constructor
      · rintro ((⟨⟨t, ⟨ht, hg⟩, hp⟩, -⟩ | ⟨⟨t, ⟨ht, hg⟩, hp⟩, -⟩) | ⟨⟨t, ⟨ht, hg⟩, hp⟩, -⟩)
        · exact ⟨t, ht, hp, Or.inl hg⟩
        · exact ⟨t, ht, hp, Or.inl hg⟩
        · exact ⟨t, ht, hp, Or.inr hg⟩
      · rintro ⟨t, ht, hp, hg⟩
        by_cases hold : ∃ t, (t ∈ c.targets.rows ∧ some t.groupId = Option.map (·.groupId)
            (c.members.rows.find? fun m => m.companyId = companyId ∧ m.employeeId = employeeId)) ∧
            t.policyId = p.id
        · by_cases hnew : ∃ t, (t ∈ c.targets.rows ∧ some t.groupId = groupId) ∧ t.policyId = p.id
          · exact Or.inl (Or.inr ⟨hold, hnew⟩)
          · exact Or.inl (Or.inl ⟨hold, hnew⟩)
        · refine Or.inr ⟨⟨t, ⟨ht, hg.resolve_left fun hg => hold ⟨t, ⟨ht, hg⟩, hp⟩⟩, hp⟩, hold⟩

/-- Whether an employee is in an audience depends on its own memberships. -/
theorem mem_audience_of_members {members : Relation MembersOnce} {employeeId : String}
    (h : ∀ m : EmployeeGroupMember, m.employeeId = employeeId →
      (m ∈ members.rows ↔ m ∈ c.members.rows)) (policy : Policy) :
    employeeId ∈ audienceEmployeeIds { c with members := members } dir policy ↔
      employeeId ∈ audienceEmployeeIds c dir policy := by
  simp only [audienceEmployeeIds]
  split
  · rfl
  · simp only [List.mem_map, List.mem_filter, decide_eq_true_eq]
    constructor
    · rintro ⟨m, ⟨hm, ht⟩, he⟩
      exact ⟨m, ⟨(h m he).mp hm, ht⟩, he⟩
    · rintro ⟨m, ⟨hm, ht⟩, he⟩
      exact ⟨m, ⟨(h m he).mpr hm, ht⟩, he⟩

end GroupService

open GroupService

/-- **A move fails and leaves no state, or keeps what belongs to others**: every
membership of another employee, and its rows with every policy, save where a
policy of the old or the new group has it in the audience without a row on the
change date, or has a row without its being in the audience. -/
theorem others_after_move (dir : Directory) (db : Db) (companyId employeeId : String)
    (groupId : Option Uuid) (x : Date) (newId : Uuid → String → Uuid) :
    (∃ error, Op.run dir (.catalog (.setEmployeeGroup companyId employeeId groupId x newId)) db =
      .error error) ∨
    ∃ db', Step dir db (.catalog (.setEmployeeGroup companyId employeeId groupId x newId)) db' ∧
      ∀ other, other ≠ employeeId →
        (∀ m, m.employeeId = other →
          (m ∈ db'.catalog.members.rows ↔ m ∈ db.catalog.members.rows)) ∧
        ∀ policyId, db.catalog.SameRows db'.catalog policyId other ↔
          ∀ p ∈ movedPolicies db.catalog companyId employeeId groupId, p.id = policyId →
            (other ∈ audienceEmployeeIds db.catalog dir p ↔
              db.catalog.Eligible p.id other x) := by
  cases hrun :
      Op.run dir (.catalog (.setEmployeeGroup companyId employeeId groupId x newId)) db with
  | error error => exact Or.inl ⟨error, rfl⟩
  | ok db' =>
    refine Or.inr ⟨db', hrun, fun other hne => ?_⟩
    have heffect := effect_of_step hrun
    cases heffect with
    | catalog h =>
    obtain ⟨members, policies, hmembers, hpolicies, hnodup, hd⟩ := setEmployeeGroup_ok h
    have hkept : ∀ m : EmployeeGroupMember, m.employeeId = other →
        (m ∈ members.rows ↔ m ∈ db.catalog.members.rows) :=
      fun m hm => hmembers.mem_iff (hm ▸ hne)
    obtain ⟨assignments, hstays⟩ := reconcilePolicies_ok hd
    constructor
    · intro m hm
      rw [← hkept m hm, hstays]
    · intro policyId
      refine (sameRows_reconciledAll hnodup hd).trans ?_
      simp only [hpolicies, mem_audience_of_members hkept]
      rfl

namespace Demo

/-- Ada and Alan are in a group from January on, and Alan's assignment is ended
in February. -/
def endedEarly : List Op :=
  [ .catalog (.createCategory ⟨categoryId, "cmp_warp_demo", "Vacation"⟩),
    .catalog (.createPolicy "cmp_warp_demo" policyId versionId "Core vacation" categoryId
      { effectiveFrom := ofYmd 2026 1 1, kind := .UNLIMITED } []),
    .catalog (.createGroup "cmp_warp_demo" groupId "Interns" ["emp_ada", "emp_alan"]),
    .catalog (.setPolicyAudience policyId false [groupId] (ofYmd 2026 1 1)
      fun _ employeeId => if employeeId = "emp_ada" then assignmentId else otherAssignmentId),
    .catalog (.endAssignment otherAssignmentId (ofYmd 2026 2 28)) ]

end Demo

/-- Alan's assignment was ended by hand. When Ada leaves their group in June, he
is assigned again. -/
theorem move_reassigns_another :
    ¬ ∀ (dir : Directory) (db : Db) (companyId employeeId : String) (groupId : Option Uuid)
      (x : Date) (newId : Uuid → String → Uuid), Reachable dir db →
      (∃ error, Op.run dir (.catalog (.setEmployeeGroup companyId employeeId groupId x newId)) db =
        .error error) ∨
      ∃ db', Step dir db (.catalog (.setEmployeeGroup companyId employeeId groupId x newId)) db' ∧
        ∀ other, other ≠ employeeId →
          (∀ m, m.employeeId = other →
            (m ∈ db'.catalog.members.rows ↔ m ∈ db.catalog.members.rows)) ∧
          ∀ policyId, db.catalog.SameRows db'.catalog policyId other := by
  intro hclaim
  have hrun : (Op.runAll Demo.directory Demo.endedEarly .empty).passes (fun r =>
      (Op.run Demo.directory (.catalog (.setEmployeeGroup "cmp_warp_demo" "emp_ada" none
        (ofYmd 2026 6 1) fun _ _ => Demo.nextAssignmentId)) r.2).passes (fun db' =>
      db'.catalog.Eligible Demo.policyId "emp_alan" (ofYmd 2026 6 1) ∧
        ¬ r.2.catalog.Eligible Demo.policyId "emp_alan" (ofYmd 2026 6 1))) = true := by
    decide +kernel
  obtain ⟨⟨l, db⟩, hops, htest⟩ := Except.ok_of_passes hrun
  obtain ⟨after, hafter, htest⟩ := Except.ok_of_passes htest
  obtain ⟨hagain, hended⟩ := of_decide_eq_true htest
  rcases hclaim Demo.directory db "cmp_warp_demo" "emp_ada" none (ofYmd 2026 6 1)
    (fun _ _ => Demo.nextAssignmentId) ⟨l, run_of_runAll hops⟩ with
    ⟨error, herror⟩ | ⟨db', hstep, hsame⟩
  · rw [hafter] at herror
    cases herror
  · simp only [Step] at hstep
    rw [hafter] at hstep
    cases hstep
    exact hended (((hsame "emp_alan" (by decide)).2 Demo.policyId).eligible.mp hagain)

end TimeOff
