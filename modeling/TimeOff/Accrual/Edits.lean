import TimeOff.Accrual.Postings
import Mathlib.Data.List.Nodup

/-!
# Policy edits and scheduled credits

Every version of a policy walks its own periods, from the one its effective date
falls in, and credits those whose credit date it is in force on. At the end of a
period all versions look at the same date, so only one of them credits it. At
the start, a version that begins inside a period credits it on its own first
day, although the version before it may have credited it already
(`SplitsPeriod`). `credited_once_iff` says that this is the only way to credit a
period twice.

The source of a scheduled credit names the assignment, the rule and the first
day of the period, and each version has rules of its own; so no source keeps two
versions from crediting one period. The proof therefore goes back from entries
to reasons: `Explained` says that every scheduled entry was posted for a period
of a rule by a job of some date, and it is kept by every step. Two entries for
one period then give two such reasons, whose versions are either the same, and
then so are their sources (`version_eq`), or split the period (`splits`).
Conversely a job that runs past a split credits both, since each version is in
force on the day it would credit (`exists_of_credits`,
`noSplit_of_creditedOnce`).
-/

namespace TimeOff

open Gregorian AccrualService

/-! ## What identifies rows

A version, an assignment or a rule is determined by its key, and the source of a
scheduled credit names the keys of all three. -/

namespace Catalog

variable {c : Catalog} {v w : PolicyVersion}

/-- Constraints of the tables: what identifies a version, an assignment and a rule. -/
theorem version_eq_of_id (hv : v ∈ c.versions.rows) (hw : w ∈ c.versions.rows)
    (h : v.id = w.id) : v = w :=
  List.inj_on_of_nodup_map c.versions.holds.id_unique hv hw h

theorem version_eq_of_effectiveFrom (hv : v ∈ c.versions.rows) (hw : w ∈ c.versions.rows)
    (hpolicy : v.policyId = w.policyId) (h : v.effectiveFrom = w.effectiveFrom) : v = w :=
  List.inj_on_of_nodup_map c.versions.holds.effective_unique hv hw (Prod.ext hpolicy h)

/-- A version is in force on the day it begins. -/
theorem versionEffectiveOn_self (hv : v ∈ c.versions.rows) :
    c.versionEffectiveOn v.policyId v.effectiveFrom = some v := by
  have hmem : v ∈ c.versions.rows.filter fun w =>
      w.policyId = v.policyId ∧ w.effectiveFrom ≤ v.effectiveFrom :=
    List.mem_filter.mpr ⟨hv, decide_eq_true ⟨rfl, le_refl _⟩⟩
  obtain ⟨w, hw⟩ := Option.isSome_iff_exists.mp
    (List.isSome_maxOn?_of_mem (f := fun v : PolicyVersion => v.effectiveFrom) hmem)
  obtain ⟨hwmem, hpolicy, hle, hlast⟩ := versionEffectiveOn_spec hw
  have heq := le_antisymm hle (hlast v hv rfl (le_refl _))
  rw [version_eq_of_effectiveFrom hv hwmem hpolicy.symm heq.symm]
  exact version_eq_of_effectiveFrom hv hwmem hpolicy.symm heq.symm ▸ hw

/-- Assignments have distinct ids. -/
theorem assignment_eq_of_id {a b : PolicyAssignment} (ha : a ∈ c.assignments.rows)
    (hb : b ∈ c.assignments.rows) (h : a.id = b.id) : a = b :=
  List.inj_on_of_nodup_map c.assignments.holds.id_unique ha hb h

theorem rule_mem_flatMap {r : AccrualRule} (hv : v ∈ c.versions.rows) (hr : r ∈ v.rules) :
    r ∈ c.versions.rows.flatMap (·.rules) := List.mem_flatMap.mpr ⟨v, hv, hr⟩

/-- Rules have distinct ids, over all versions. -/
theorem rule_eq_of_id {r s : AccrualRule} (hv : v ∈ c.versions.rows) (hw : w ∈ c.versions.rows)
    (hr : r ∈ v.rules) (hs : s ∈ w.rules) (h : r.id = s.id) : r = s :=
  List.inj_on_of_nodup_map c.versions.holds.rule_unique (rule_mem_flatMap hv hr)
    (rule_mem_flatMap hw hs) h

/-- A rule belongs to one version. -/
theorem version_eq_of_rule {r s : AccrualRule} (hv : v ∈ c.versions.rows)
    (hw : w ∈ c.versions.rows) (hr : r ∈ v.rules) (hs : s ∈ w.rules) (h : r.id = s.id) :
    v = w := by
  have hnodup : (c.versions.rows.flatMap (·.rules)).Nodup :=
    List.Nodup.of_map _ c.versions.holds.rule_unique
  obtain rfl : r = s := rule_eq_of_id hv hw hr hs h
  by_contra hne
  -- the rules of different versions are disjoint
  have hsymm : Std.Symm (Function.onFun List.Disjoint fun v : PolicyVersion => v.rules) :=
    ⟨fun _ _ h => h.symm⟩
  exact (List.nodup_flatMap.mp hnodup).2.forall hv hw hne hr hs

end Catalog

/-- The source of a credit tells the assignment, the rule and the period. -/
theorem scheduledSource_inj {a b r s : Uuid} {d e : Date}
    (h : scheduledSource a r d = scheduledSource b s e) : a = b ∧ r = s ∧ d = e := by
  obtain ⟨hrest, hdate⟩ := Text.append_sep_inj' (x := ':') (colon_notMem_isoformat d)
    (colon_notMem_isoformat e) h
  obtain ⟨ha, hr⟩ := Text.append_sep_inj' (x := ':') r.colon_notMem s.colon_notMem hrest
  exact ⟨Uuid.text_injective ha, Uuid.text_injective hr, isoformat_inj hdate⟩

/-! ## Splits

A version that begins inside a period splits it if an earlier version is in force
on days of the period before that. Both versions then credit the period, each
under a source of its own. -/

/-- `eligible_from` of the scheduled job. -/
def PolicyAssignment.eligibleFrom (a : PolicyAssignment) (employee : Employee) : Date :=
  max employee.startDate a.effectiveFrom

/-- What a version credits for a period by the rule of the employee's tenure. -/
def PolicyVersion.periodCredit (v : PolicyVersion) (employee : Employee) (eligibleFrom : Date)
    (period : Period) : Int :=
  match selectedRule (eligibleRules v .TIME
    (completedTenureMonths employee.startDate period.start)) with
  | .ok rule => scheduledAmount rule.amount rule.unit period eligibleFrom v.newHireProration
    employee.workMinutesPerDay
  | .error _ => 0

/-- The day a period's credit falls due. -/
def AccruesAt.nominal (accruesAt : AccruesAt) (period : Period) : Date :=
  match accruesAt with
  | .START_OF_PERIOD => period.start
  | .END_OF_PERIOD => period.finish

/-- It is a day of the period. -/
theorem AccruesAt.nominal_mem {accruesAt : AccruesAt} {period : Period}
    (h : period.start ≤ period.finish) :
    period.start ≤ accruesAt.nominal period ∧ accruesAt.nominal period ≤ period.finish := by
  cases accruesAt with
  | START_OF_PERIOD => exact ⟨le_refl _, h⟩
  | END_OF_PERIOD => exact ⟨h, le_refl _⟩

/-- But never before the version and the eligibility have begun. -/
theorem AccrualService.RuleScope.effective_eq {s : RuleScope} {accruesAt : AccruesAt}
    (h : s.rule.accruesAt = some accruesAt) (period : Period) :
    s.effective period = max (accruesAt.nominal period) s.first := by
  refine congrArg (max · s.first) ?_
  cases accruesAt with
  | START_OF_PERIOD => exact if_pos h
  | END_OF_PERIOD => exact if_neg (by simp [h])

/-- Version `w` begins inside a period, past its first day and after the employee
is eligible, and an earlier version `v` is in force on the day it credits the
period. Both credit something. -/
structure SplitsPeriod (cat : Catalog) (employee : Employee) (a : PolicyAssignment)
    (period : Period) (v w : PolicyVersion) : Prop where
  inside : period.start < w.effectiveFrom
  eligible : a.eligibleFrom employee < w.effectiveFrom
  earlier : v.effectiveFrom < w.effectiveFrom
  inForce : cat.versionEffectiveOn a.policyId
    (max period.start (max (a.eligibleFrom employee) v.effectiveFrom)) = some v
  credits_earlier : v.periodCredit employee (a.eligibleFrom employee) period ≠ 0
  credits_later : w.periodCredit employee (a.eligibleFrom employee) period ≠ 0

instance (cat : Catalog) (employee : Employee) (a : PolicyAssignment) (period : Period)
    (v w : PolicyVersion) : Decidable (SplitsPeriod cat employee a period v w) :=
  decidable_of_iff
    (period.start < w.effectiveFrom ∧ a.eligibleFrom employee < w.effectiveFrom ∧
      v.effectiveFrom < w.effectiveFrom ∧
      cat.versionEffectiveOn a.policyId
        (max period.start (max (a.eligibleFrom employee) v.effectiveFrom)) = some v ∧
      v.periodCredit employee (a.eligibleFrom employee) period ≠ 0 ∧
      w.periodCredit employee (a.eligibleFrom employee) period ≠ 0)
    ⟨fun ⟨h₁, h₂, h₃, h₄, h₅, h₆⟩ => ⟨h₁, h₂, h₃, h₄, h₅, h₆⟩,
      fun ⟨h₁, h₂, h₃, h₄, h₅, h₆⟩ => ⟨h₁, h₂, h₃, h₄, h₅, h₆⟩⟩

/-- No version that has begun by `asOf`, and by the end of the assignment, splits
the period it begins in. -/
def NoSplit (dir : Directory) (frequency : Schedule) (a : PolicyAssignment) (cat : Catalog)
    (asOf : Date) : Prop :=
  (dir.company a.companyId).Ensures fun company =>
    (dir.employee a.employeeId).Ensures fun employee =>
    ∀ v ∈ cat.versionsOf a.policyId, ∀ w ∈ cat.versionsOf a.policyId,
      w.effectiveFrom ≤ min asOf (a.effectiveTo.getD asOf) →
        ¬ SplitsPeriod cat employee a
          (periodOf frequency company.payPeriodAnchor w.effectiveFrom) v w

instance (dir : Directory) (frequency : Schedule) (a : PolicyAssignment) (cat : Catalog)
    (asOf : Date) : Decidable (NoSplit dir frequency a cat asOf) :=
  inferInstanceAs (Decidable (Except.Ensures (fun _ => Except.Ensures (fun _ =>
    ∀ v ∈ cat.versionsOf a.policyId, ∀ w ∈ cat.versionsOf a.policyId, _ → _) _) _))

/-- All versions of the policy share one frequency and one accrual point. -/
def Catalog.SharesSchedule (c : Catalog) (policyId : Uuid) (frequency : Schedule)
    (accruesAt : AccruesAt) : Prop :=
  ∀ v ∈ c.versionsOf policyId, ∀ rule ∈ v.rules, rule.method = .TIME →
    rule.frequency = some frequency ∧ rule.accruesAt = some accruesAt

instance (c : Catalog) (policyId : Uuid) (frequency : Schedule) (accruesAt : AccruesAt) :
    Decidable (c.SharesSchedule policyId frequency accruesAt) :=
  inferInstanceAs (Decidable (∀ v ∈ c.versionsOf policyId, ∀ rule ∈ v.rules, _ → _))

/-- What is selected is a rule of the version. -/
theorem selectedRule_spec {v : PolicyVersion} {method : AccrualMethod} {tenure : Int}
    {rule : AccrualRule} (h : selectedRule (eligibleRules v method tenure) = .ok rule) :
    rule ∈ v.rules ∧ rule.method = method := by
  simp only [selectedRule] at h
  split at h
  · next found hmax =>
    cases h
    obtain ⟨hmem, hrule⟩ := List.mem_filter.mp (List.maxOn?_mem hmax)
    exact ⟨hmem, (of_decide_eq_true hrule).1⟩
  · cases h

/-! ## Scheduled postings of one assignment

What the plan has for one assignment, in terms of versions and periods: which
postings there are, and which two of them are for one period. -/

namespace AccrualService.Scheduled

variable {cat : Catalog} {dir : Directory} {companyId companyId' : String} {asOf asOf' : Date}
  {s s' : RuleScope} {period period' : Period} {p p' : Posting} {frequency : Schedule}
  {accruesAt : AccruesAt}

/-- What the loops had in scope. -/
theorem scope_eq (h : Scheduled cat dir companyId asOf s period p) :
    s.eligibleFrom = s.assignment.eligibleFrom s.employee ∧
      s.through = min asOf (s.assignment.effectiveTo.getD asOf) ∧ s.rule.method = .TIME ∧
      s.rule.frequency = some s.frequency := by
  obtain ⟨hmethod, hfrequency, hs⟩ := ruleScope_eq_some h.scope
  exact ⟨congrArg RuleScope.eligibleFrom hs, congrArg RuleScope.through hs, hmethod, hfrequency⟩

/-- The version is in force on the day of the credit. -/
theorem inForce (h : Scheduled cat dir companyId asOf s period p) :
    cat.versionEffectiveOn s.assignment.policyId (s.effective period) = some s.version := by
  obtain ⟨-, hactive, -⟩ := RuleScope.decision_eq_some h.decision
  obtain ⟨v, hv, hid⟩ := Option.map_eq_some_iff.mp hactive
  rw [hv, Catalog.version_eq_of_id (Catalog.versionEffectiveOn_spec hv).1
    (Catalog.mem_versionsOf.mp h.stored).1 hid]

/-- The rule is the one of the employee's tenure. -/
theorem selected (h : Scheduled cat dir companyId asOf s period p) :
    selectedRule (eligibleRules s.version .TIME
      (completedTenureMonths s.employee.startDate period.start)) = .ok s.rule := by
  obtain ⟨-, -, ⟨rule, hrule, hid⟩, -⟩ := RuleScope.decision_eq_some h.decision
  have hv := (Catalog.mem_versionsOf.mp h.stored).1
  rw [hrule, Catalog.rule_eq_of_id hv hv (selectedRule_spec hrule).1 h.listed hid]

theorem credits (h : Scheduled cat dir companyId asOf s period p) :
    s.version.periodCredit s.employee (s.assignment.eligibleFrom s.employee) period ≠ 0 := by
  obtain ⟨-, -, -, hamount⟩ := RuleScope.decision_eq_some h.decision
  simp only [PolicyVersion.periodCredit]
  rw [h.selected, ← h.scope_eq.1]
  exact hamount

/-- The schedule is that of the policy. -/
theorem shares (h : Scheduled cat dir companyId asOf s period p)
    (hshare : cat.SharesSchedule s.assignment.policyId frequency accruesAt) :
    s.frequency = frequency ∧ s.rule.accruesAt = some accruesAt := by
  obtain ⟨-, -, hmethod, hfrequency⟩ := h.scope_eq
  obtain ⟨hf, hpoint⟩ := hshare s.version h.stored s.rule h.listed hmethod
  exact ⟨Option.some.inj (hfrequency.symm.trans hf), hpoint⟩

/-- One assignment is of one employee. -/
theorem employee_eq (h : Scheduled cat dir companyId asOf s period p)
    (h' : Scheduled cat dir companyId' asOf' s' period' p') (ha : s'.assignment = s.assignment) :
    s'.employee = s.employee := by
  have hknown := h'.known
  rw [ha, h.known] at hknown
  exact (Except.ok.inj hknown).symm

/-- The company and the shared frequency fix the calendar. -/
theorem period_of (h : Scheduled cat dir companyId asOf s period p)
    (hshare : cat.SharesSchedule s.assignment.policyId frequency accruesAt) :
    ∃ company, dir.company s.assignment.companyId = .ok company ∧
      period = periodOf frequency company.payPeriodAnchor period.start ∧
      s.first ≤ period.finish := by
  obtain ⟨company, hcompany, hperiod, hfirst, -⟩ := h.period_spec
  obtain ⟨-, hbegun⟩ := List.mem_filter.mp h.begun
  rw [← (of_decide_eq_true hbegun).1] at hcompany
  rw [(h.shares hshare).1] at hperiod
  exact ⟨company, hcompany, hperiod, hfirst⟩

/-- So the first day of a period tells the period. -/
theorem period_eq (h : Scheduled cat dir companyId asOf s period p)
    (h' : Scheduled cat dir companyId' asOf' s' period' p') (ha : s'.assignment = s.assignment)
    (hshare : cat.SharesSchedule s.assignment.policyId frequency accruesAt)
    (hstart : period.start = period'.start) : period = period' := by
  obtain ⟨company, hcompany, hperiod, -⟩ := h.period_of hshare
  obtain ⟨company', hcompany', hperiod', -⟩ := h'.period_of (ha ▸ hshare)
  rw [ha, hcompany] at hcompany'
  cases hcompany'
  rw [hperiod, hperiod', hstart]

/-- At the start of a period, a version that credits it after another one began
inside it. -/
theorem splits (h : Scheduled cat dir companyId asOf s period p)
    (h' : Scheduled cat dir companyId' asOf' s' period p') (ha : s'.assignment = s.assignment)
    (hshare : cat.SharesSchedule s.assignment.policyId frequency .START_OF_PERIOD)
    (hlt : s.version.effectiveFrom < s'.version.effectiveFrom) :
    SplitsPeriod cat s.employee s.assignment period s.version s'.version ∧
      s'.version.effectiveFrom ≤ period.finish ∧
      s'.version.effectiveFrom ≤ min asOf' (s.assignment.effectiveTo.getD asOf') := by
  have hemployee := h.employee_eq h' ha
  have hfirst : s.first = max (s.assignment.eligibleFrom s.employee) s.version.effectiveFrom :=
    congrArg (max · _) h.scope_eq.1
  have hfirst' :
      s'.first = max (s.assignment.eligibleFrom s.employee) s'.version.effectiveFrom := by
    rw [← ha, ← hemployee]
    exact congrArg (max · _) h'.scope_eq.1
  -- both credit the period at its start, unless they begin later
  have hx : s.effective period = max period.start s.first :=
    s.effective_eq (h.shares hshare).2 period
  have hshare' : cat.SharesSchedule s'.assignment.policyId frequency .START_OF_PERIOD := ha ▸ hshare
  have hy : s'.effective period = max period.start s'.first :=
    s'.effective_eq (h'.shares hshare').2 period
  have hv := h.inForce
  rw [hx, hfirst] at hv
  have hstored := h'.stored
  rw [ha] at hstored
  obtain ⟨hw, hpolicy⟩ := Catalog.mem_versionsOf.mp hstored
  -- the later version has not begun when the earlier one credits
  have hbefore : max period.start (max (s.assignment.eligibleFrom s.employee)
      s.version.effectiveFrom) < s'.version.effectiveFrom := by
    by_contra hle
    have hlast := (Catalog.versionEffectiveOn_spec hv).2.2.2 _ hw hpolicy (not_lt.mp hle)
    exact absurd hlt (not_lt.mpr hlast)
  have hinside := lt_of_le_of_lt (le_max_left _ _) hbefore
  have heligible := lt_of_le_of_lt (le_trans (le_max_left _ _) (le_max_right _ _)) hbefore
  have hcredits := h'.credits
  rw [ha, hemployee] at hcredits
  obtain ⟨_, -, -, hfinish⟩ := h'.period_of (ha ▸ hshare)
  have hdue := h'.due
  rw [hy, hfirst', h'.scope_eq.2.1, ha] at hdue
  rw [hfirst'] at hfinish
  exact ⟨⟨hinside, heligible, hlt, hv, h.credits, hcredits⟩, le_trans (le_max_right _ _) hfinish,
    le_trans (le_trans (le_max_right _ _) (le_max_right _ _)) hdue⟩

/-- With no split, one version credits a period. -/
theorem version_eq (h : Scheduled cat dir companyId asOf s period p)
    (h' : Scheduled cat dir companyId' asOf' s' period p') (ha : s'.assignment = s.assignment)
    (hshare : cat.SharesSchedule s.assignment.policyId frequency accruesAt)
    (hsplit : accruesAt = .START_OF_PERIOD → NoSplit dir frequency s.assignment cat asOf)
    (hsplit' : accruesAt = .START_OF_PERIOD → NoSplit dir frequency s.assignment cat asOf') :
    s.version = s'.version := by
  have hstored' := h'.stored
  rw [ha] at hstored'
  obtain ⟨hv, hpolicy⟩ := Catalog.mem_versionsOf.mp h.stored
  obtain ⟨hw, hpolicy'⟩ := Catalog.mem_versionsOf.mp hstored'
  cases accruesAt with
  | END_OF_PERIOD =>
    -- all versions look at the last day of the period
    have hend : ∀ {companyId asOf s p}, Scheduled cat dir companyId asOf s period p →
        s.rule.accruesAt = some .END_OF_PERIOD → s.effective period = period.finish := by
      intro companyId asOf s p h hpoint
      obtain ⟨-, -, -, hfirst, -⟩ := h.period_spec
      exact (s.effective_eq hpoint period).trans (max_eq_left hfirst)
    have hinForce := h.inForce
    have hinForce' := h'.inForce
    rw [hend h (h.shares hshare).2] at hinForce
    rw [hend h' (h'.shares (ha ▸ hshare)).2, ha, hinForce] at hinForce'
    exact Option.some.inj hinForce'
  | START_OF_PERIOD =>
    obtain ⟨company, hcompany, hperiod, -⟩ := h.period_of hshare
    have hknown := h.known
    rcases lt_trichotomy s.version.effectiveFrom s'.version.effectiveFrom with hlt | heq | hgt
    · obtain ⟨hs, hfinish, hthrough⟩ := h.splits h' ha hshare hlt
      have hno := Except.ensures_iff.mp (Except.ensures_iff.mp (hsplit' rfl) _ hcompany) _ hknown
        _ h.stored _ hstored' hthrough
      rw [periodOf_eq hperiod (le_of_lt hs.inside) hfinish] at hno
      exact absurd hs hno
    · exact Catalog.version_eq_of_effectiveFrom hv hw (hpolicy.trans hpolicy'.symm) heq
    · obtain ⟨hs, hfinish, hthrough⟩ := h'.splits h ha.symm (ha ▸ hshare) hgt
      rw [ha, h.employee_eq h' ha] at hs
      rw [ha] at hthrough
      have hno := Except.ensures_iff.mp (Except.ensures_iff.mp (hsplit rfl) _ hcompany) _ hknown
        _ hstored' _ h.stored hthrough
      rw [periodOf_eq hperiod (le_of_lt hs.inside) hfinish] at hno
      exact absurd hs hno

/-- A version credits a period when it is in force on the day it would. -/
theorem exists_of_credits {employee : Employee} {company : Company} {a : PolicyAssignment}
    {v : PolicyVersion} (ha : a ∈ cat.assignments.rows)
    (hcompany : dir.company a.companyId = .ok company)
    (hemployee : dir.employee a.employeeId = .ok employee) (hv : v ∈ cat.versionsOf a.policyId)
    (hshare : cat.SharesSchedule a.policyId frequency accruesAt)
    (hperiod : period = periodOf frequency company.payPeriodAnchor period.start)
    (hfirst : max (a.eligibleFrom employee) v.effectiveFrom ≤ period.finish)
    (hdue : max (accruesAt.nominal period) (max (a.eligibleFrom employee) v.effectiveFrom)
      ≤ min asOf (a.effectiveTo.getD asOf))
    (hforce : cat.versionEffectiveOn a.policyId
      (max (accruesAt.nominal period) (max (a.eligibleFrom employee) v.effectiveFrom)) = some v)
    (hcredits : v.periodCredit employee (a.eligibleFrom employee) period ≠ 0) :
    ∃ s p, Scheduled cat dir a.companyId asOf s period p ∧ s.assignment = a ∧ s.version = v := by
  -- the rule of the employee's tenure is there, since something is credited
  obtain ⟨rule, hrule⟩ : ∃ rule, selectedRule (eligibleRules v .TIME
      (completedTenureMonths employee.startDate period.start)) = .ok rule := by
    simp only [PolicyVersion.periodCredit] at hcredits
    split at hcredits
    · next rule hrule => exact ⟨rule, hrule⟩
    · exact absurd rfl hcredits
  obtain ⟨hlisted, hmethod⟩ := selectedRule_spec hrule
  obtain ⟨hfrequency, hpoint⟩ := hshare v hv rule hlisted hmethod
  let s : RuleScope := ⟨a.companyId, employee, a, v, rule, frequency, a.eligibleFrom employee,
    min asOf (a.effectiveTo.getD asOf)⟩
  have heffective : s.effective period
      = max (accruesAt.nominal period) (max (a.eligibleFrom employee) v.effectiveFrom) :=
    s.effective_eq hpoint period
  have hamount : s.amount period ≠ 0 := by
    simp only [PolicyVersion.periodCredit] at hcredits
    rw [hrule] at hcredits
    exact hcredits
  have hspan : period.start ≤ period.finish := by
    rw [hperiod]
    exact start_le_finish ..
  refine ⟨s, s.posting period, ⟨?_, hemployee, hv, hlisted, ?_, ?_, ?_, ?_⟩, rfl, rfl⟩
  · have hbegun : a.effectiveFrom ≤ asOf :=
      le_trans (le_trans (le_trans (le_trans (le_max_right _ _) (le_max_left _ _))
        (le_max_right _ _)) hdue) (min_le_left _ _)
    exact List.mem_filter.mpr ⟨ha, decide_eq_true ⟨rfl, hbegun⟩⟩
  · show ruleScope a.companyId asOf employee a v rule = some s
    simp only [ruleScope]
    rw [hmethod, hfrequency]
    rfl
  · obtain ⟨periods, hperiods, hmem⟩ :=
      mem_iterPeriods s.first s.through frequency company.payPeriodAnchor
    refine ⟨company, periods, hcompany, hperiods, (hmem period).mpr ⟨hperiod, ?_, ?_⟩⟩
    · exact (start_le_start_iff hperiod).mpr hfirst
    · exact le_trans (le_trans (AccruesAt.nominal_mem hspan).1 (le_max_left _ _)) hdue
  · rw [heffective]
    exact hdue
  · rw [heffective]
    show s.decision period (cat.versionEffectiveOn a.policyId _) = _
    rw [hforce]
    exact RuleScope.decision_of_selected rfl hrule hamount

end AccrualService.Scheduled

/-! ## Runs

Credits of the account are explained by plans, of whatever dates the runs had. A
period is credited twice if two versions split it and a run has reached both
credit dates. -/

/-- The entry credits the assignment for the period that starts on `start`. -/
def LedgerEntry.CreditsPeriod (a : PolicyAssignment) (start : Date) (e : LedgerEntry) : Prop :=
  e.entryType = .ACCRUAL ∧ e.sourceType = .SCHEDULED_ACCRUAL ∧
    ∃ ruleId, e.sourceId = scheduledSource a.id ruleId start

/-- No period of the assignment is credited twice. -/
def CreditedOnce (a : PolicyAssignment) (ledger : Ledger) : Prop :=
  ∀ start, ∀ e ∈ ledger.rows, ∀ f ∈ ledger.rows,
    e.CreditsPeriod a start → f.CreditsPeriod a start → e = f

/-- A run of the scheduled job. -/
def Op.IsScheduled : Op → Prop
  | .runScheduled .. => True
  | _ => False

instance (op : Op) : Decidable op.IsScheduled :=
  match op with
  | .runScheduled .. => isTrue trivial
  | .catalog _ | .submit .. | .decide .. | .cancel .. | .onPayrollProcessed .. | .rollover .. =>
    isFalse id

/-- A step that runs no scheduled job past a split. -/
def KeepsPeriods (dir : Directory) (frequency : Schedule) (accruesAt : AccruesAt)
    (a : PolicyAssignment) (db : Db) : Op → Prop
  | .runScheduled companyId asOf => companyId = a.companyId → accruesAt = .START_OF_PERIOD →
    NoSplit dir frequency a db.catalog asOf
  | _ => True

instance (dir : Directory) (frequency : Schedule) (accruesAt : AccruesAt) (a : PolicyAssignment)
    (db : Db) (op : Op) : Decidable (KeepsPeriods dir frequency accruesAt a db op) :=
  match op with
  | .runScheduled companyId asOf =>
    inferInstanceAs (Decidable (companyId = a.companyId → accruesAt = .START_OF_PERIOD →
      NoSplit dir frequency a db.catalog asOf))
  | .catalog _ | .submit .. | .decide .. | .cancel .. | .onPayrollProcessed .. | .rollover .. =>
    isTrue trivial

/-- Every scheduled entry was posted for a period of a rule, by a job whose date
satisfies `G` if it is about the assignment. -/
def Explained (dir : Directory) (a : PolicyAssignment) (G : Date → Prop) (db : Db) : Prop :=
  ∀ e ∈ db.ledger.rows, e.sourceType = .SCHEDULED_ACCRUAL → ∃ companyId asOf s period p,
    Scheduled db.catalog dir companyId asOf s period p ∧ p.Posts e ∧ (s.assignment = a → G asOf)

section runs

variable {dir : Directory} {frequency : Schedule} {accruesAt : AccruesAt} {a : PolicyAssignment}
  {G : Date → Prop} {db db' : Db} {op : Op}

/-- A weaker condition on dates explains as much. -/
theorem Explained.mono {G' : Date → Prop} (h : Explained dir a G db)
    (hG : ∀ asOf, G asOf → G' asOf) :
    Explained dir a G' db := by
  intro e he htype
  obtain ⟨companyId, asOf, s, period, p, hs, hpost, hdate⟩ := h e he htype
  exact ⟨companyId, asOf, s, period, p, hs, hpost, fun ha => hG asOf (hdate ha)⟩

/-- A step posts scheduled entries by a job, or none. -/
theorem Explained.step (h : Explained dir a G db) (hcat : db'.catalog = db.catalog)
    (heffect : LedgerEffect dir db op db')
    (hG : ∀ companyId asOf, op = .runScheduled companyId asOf → companyId = a.companyId → G asOf) :
    Explained dir a G db' := by
  intro e he htype
  rw [hcat]
  refine heffect.accrualEntries (P := fun e => e.sourceType = .SCHEDULED_ACCRUAL →
    ∃ companyId asOf s period p, Scheduled db.catalog dir companyId asOf s period p ∧
      p.Posts e ∧ (s.assignment = a → G asOf)) (fun e he _ => h e he) ?_ e he (Or.inl htype) htype
  intro ps p e hplan hp hpost htype
  obtain ⟨companyId, asOf, s, period, hop, hs⟩ :=
    scheduled_of_postings hplan hp (hpost.sourceType.symm.trans htype)
  refine ⟨companyId, asOf, s, period, p, hs, hpost, fun ha => hG companyId asOf hop ?_⟩
  obtain ⟨-, hbegun⟩ := List.mem_filter.mp hs.begun
  rw [← (of_decide_eq_true hbegun).1, ha]

/-- What a credit of the assignment was posted for. -/
theorem Explained.of_credits (h : Explained dir a G db) (ha : a ∈ db.catalog.assignments.rows)
    {e : LedgerEntry} {start : Date} (he : e ∈ db.ledger.rows)
    (hcredits : e.CreditsPeriod a start) :
    ∃ companyId asOf s period p, Scheduled db.catalog dir companyId asOf s period p ∧
      s.assignment = a ∧ period.start = start ∧
      e.sourceId = scheduledSource a.id s.rule.id start ∧ G asOf := by
  obtain ⟨htype, hsource, ruleId, hid⟩ := hcredits
  obtain ⟨companyId, asOf, s, period, p, hs, hpost, hG⟩ := h e he hsource
  rcases hpost with rfl | ⟨_, _, _, _, rfl⟩
  · rw [hs.posting_eq] at hid ⊢
    obtain ⟨hassignment, -, hstart⟩ := scheduledSource_inj hid
    have hsa : s.assignment = a :=
      Catalog.assignment_eq_of_id (List.mem_filter.mp hs.begun).1 ha hassignment
    refine ⟨companyId, asOf, s, period, _, hs.posting_eq ▸ hs, hsa, hstart, ?_, hG hsa⟩
    show scheduledSource s.assignment.id s.rule.id period.start = _
    rw [hassignment, hstart]
  · cases htype

/-- Credits explained without splits are the only ones of their periods. -/
theorem creditedOnce_of_explained (ha : a ∈ db.catalog.assignments.rows)
    (hshare : db.catalog.SharesSchedule a.policyId frequency accruesAt)
    (h : Explained dir a (fun asOf => accruesAt = .START_OF_PERIOD →
      NoSplit dir frequency a db.catalog asOf) db) : CreditedOnce a db.ledger := by
  intro start e he f hf hecredits hfcredits
  obtain ⟨_, _, s, period, _, hs, hsa, hstart, hid, hG⟩ := h.of_credits ha he hecredits
  obtain ⟨_, _, s', period', _, hs', hsa', hstart', hid', hG'⟩ := h.of_credits ha hf hfcredits
  have hassignment : s'.assignment = s.assignment := hsa'.trans hsa.symm
  rw [← hsa] at hshare hG hG'
  obtain rfl : period = period' :=
    hs.period_eq hs' hassignment hshare (hstart.trans hstart'.symm)
  have hversion := hs.version_eq hs' hassignment hshare hG hG'
  -- one version has one rule for the employee's tenure
  have hselected := hs'.selected
  rw [← hversion, hs.employee_eq hs' hassignment, hs.selected] at hselected
  have hrule : s.rule = s'.rule := Except.ok.inj hselected
  refine Table.eq_of_key he hf (Prod.ext (hecredits.2.1.trans hfcredits.2.1.symm) ?_)
  exact hid.trans (hrule ▸ hid'.symm)

/-- The entry of a credit that was planned. -/
theorem Explained.exists_of_plan (h : Explained dir a G db) {s : RuleScope} {period : Period}
    (hkey : Table.Has db.ledger (s.posting period).credit.key) (ha : s.assignment = a) :
    ∃ e ∈ db.ledger.rows, e.CreditsPeriod a period.start ∧
      e.sourceId = scheduledSource a.id s.rule.id period.start := by
  obtain ⟨e, he, hekey⟩ := List.mem_map.mp hkey
  obtain ⟨hsource, hid⟩ := Prod.mk.inj hekey
  have hid : e.sourceId = scheduledSource a.id s.rule.id period.start := ha ▸ hid
  obtain ⟨_, _, s', period', p, hs', hpost, -⟩ := h e he hsource
  rcases hpost with rfl | ⟨_, _, _, _, rfl⟩
  · exact ⟨_, he, ⟨rfl, hsource, _, hid⟩, hid⟩
  · -- the source of a cap loss is not that of a credit
    exact absurd hid.symm (ne_append_forfeiture (colon_notMem_isoformat _)
      (isoformat_ne_forfeiture _))

/-- A scheduled job past a split credits the period twice. -/
theorem noSplit_of_creditedOnce {companyId : String} {asOf : Date} {ps : List Posting}
    (ha : a ∈ db.catalog.assignments.rows)
    (hshare : db.catalog.SharesSchedule a.policyId frequency .START_OF_PERIOD)
    (hcompanyId : companyId = a.companyId)
    (hplan : scheduledPlan db.catalog dir companyId asOf = .ok ps)
    (hledger : db'.ledger = (db.postAccruals ps).ledger)
    (hexplained : Explained dir a (fun _ => True) db') (honce : CreditedOnce a db'.ledger) :
    NoSplit dir frequency a db.catalog asOf := by
  subst hcompanyId
  refine Except.ensures_iff.mpr fun company hcompany => Except.ensures_iff.mpr fun employee
    hemployee => ?_
  intro v hv w hw hthrough hsplit
  have hperiod := periodOf_start frequency company.payPeriodAnchor w.effectiveFrom
  have hfinish := (mem_periodOf frequency company.payPeriodAnchor w.effectiveFrom).2
  have hv_le : max (periodOf frequency company.payPeriodAnchor w.effectiveFrom).start
      (max (a.eligibleFrom employee) v.effectiveFrom) ≤ w.effectiveFrom :=
    max_le (le_of_lt hsplit.inside) (max_le (le_of_lt hsplit.eligible) (le_of_lt hsplit.earlier))
  have hw_eq : max (AccruesAt.START_OF_PERIOD.nominal
        (periodOf frequency company.payPeriodAnchor w.effectiveFrom))
      (max (a.eligibleFrom employee) w.effectiveFrom) = w.effectiveFrom := by
    rw [max_eq_right (le_of_lt hsplit.eligible)]
    exact max_eq_right (le_of_lt hsplit.inside)
  obtain ⟨hwmem, hpolicy⟩ := Catalog.mem_versionsOf.mp hw
  -- both versions have a posting for the period in the plan
  obtain ⟨s, p, hs, hsa, rfl⟩ := Scheduled.exists_of_credits ha hcompany hemployee hv hshare hperiod
    (le_trans (le_trans (le_max_right _ _) hv_le) hfinish) (le_trans hv_le hthrough) hsplit.inForce
    hsplit.credits_earlier
  obtain ⟨s', p', hs', hsa', rfl⟩ := Scheduled.exists_of_credits ha hcompany hemployee hw hshare
    hperiod (le_trans (le_trans (le_max_right _ _) (le_of_eq hw_eq)) hfinish)
    (hw_eq.symm ▸ hthrough)
    (by rw [hw_eq, ← hpolicy]; exact Catalog.versionEffectiveOn_self hwmem) hsplit.credits_later
  have hp := hs.mem_plan hplan
  have hp' := hs'.mem_plan hplan
  rw [hs.posting_eq] at hp
  rw [hs'.posting_eq] at hp'
  -- so the ledger has a credit for each, and they are one
  obtain ⟨e, he, hecredits, heid⟩ :=
    hexplained.exists_of_plan (hledger ▸ Db.has_credit_postAccruals hp) hsa
  obtain ⟨f, hf, hfcredits, hfid⟩ :=
    hexplained.exists_of_plan (hledger ▸ Db.has_credit_postAccruals hp') hsa'
  obtain rfl := honce _ e he f hf hecredits hfcredits
  obtain ⟨-, hrule, -⟩ := scheduledSource_inj (heid.symm.trans hfid)
  -- but a rule belongs to one version
  have hversion := Catalog.version_eq_of_rule (Catalog.mem_versionsOf.mp hv).1 hwmem hs.listed
    hs'.listed hrule
  have hearlier := hsplit.earlier
  rw [hversion] at hearlier
  exact lt_irrefl _ hearlier

end runs

/-- What the credits of an assignment rest on: the catalog of the edits, and a
reason for every scheduled entry. -/
structure EditInvariant (dir : Directory) (frequency : Schedule) (accruesAt : AccruesAt)
    (a : PolicyAssignment) (cat : Catalog) (db : Db) : Prop where
  catalog : db.catalog = cat
  explained : Explained dir a (fun asOf => accruesAt = .START_OF_PERIOD →
    NoSplit dir frequency a cat asOf) db

/-- After the edits of a policy, whose versions share one schedule, the scheduled
jobs credit each of its periods once exactly when none of them runs past a
split. -/
theorem credited_once_iff {dir : Directory} {frequency : Schedule} {accruesAt : AccruesAt}
    {a : PolicyAssignment} {l : List (Db × Op × Db)} {db₀ db : Db} (h : Run dir db₀ l db)
    (hedits : ∀ x ∈ l, ¬ x.2.1.Edits)
    (hfresh : ∀ e ∈ db₀.ledger.rows, e.sourceType ≠ .SCHEDULED_ACCRUAL)
    (ha : a ∈ db₀.catalog.assignments.rows)
    (hshare : db₀.catalog.SharesSchedule a.policyId frequency accruesAt) :
    (∀ x ∈ l, CreditedOnce a x.2.2.ledger) ↔
      ∀ x ∈ l, KeepsPeriods dir frequency accruesAt a x.1 x.2.1 := by
  have hrun := h.restrict (P := fun op => ¬ op.Edits) hedits
  refine hrun.guard_iff (G := fun db => CreditedOnce a db.ledger)
    (EditInvariant dir frequency accruesAt a db₀.catalog) ⟨⟨rfl, ?_⟩, ?_⟩ ?_ ?_
  · intro e he htype
    exact absurd htype (hfresh e he)
  · intro _ e he _ _ hcredits
    exact absurd hcredits.2.1 (hfresh e he)
  · -- a guarded step explains its credits by whole periods
    rintro db op db' ⟨hinv, -⟩ hkeeps ⟨hstep, hop⟩
    have heffect := effect_of_step hstep
    have hcat := heffect.catalog_eq hop
    have hexplained : Explained dir a (fun asOf => accruesAt = .START_OF_PERIOD →
        NoSplit dir frequency a db₀.catalog asOf) db' := by
      refine hinv.explained.step hcat heffect.onLedger ?_
      rintro companyId asOf rfl hcompany
      rw [← hinv.catalog]
      exact hkeeps hcompany
    have hcat₀ := hcat.trans hinv.catalog
    refine ⟨⟨hcat₀, hexplained⟩, ?_⟩
    rw [← hcat₀] at ha hshare hexplained
    exact creditedOnce_of_explained ha hshare hexplained
  · -- and a step that splits a period credits it twice
    rintro db op db' ⟨hinv, -⟩ ⟨hstep, hop⟩ honce
    have heffect := effect_of_step hstep
    have hexplained : Explained dir a (fun _ => True) db' :=
      (hinv.explained.mono fun _ _ => trivial).step (heffect.catalog_eq hop) heffect.onLedger
        fun _ _ _ _ => trivial
    rw [← hinv.catalog] at ha hshare
    cases heffect with
    | @runScheduled companyId asOf ps outcome hplan =>
      intro hcompany hpoint
      subst hpoint
      exact noSplit_of_creditedOnce ha hshare hcompany hplan rfl hexplained honce
    | catalog => exact absurd trivial hop
    | submit | decide | cancel | onPayrollProcessed | rollover => trivial

namespace Demo

/-- Ada accrues a day at the start of every month, and a day and a half once the
policy is edited. -/
def editedFrom (day : Date) : List Op :=
  monthlyDay none ++
    [ .catalog (.updatePolicy policyId nextVersionId none { effectiveFrom := day, kind := .ACCRUAL }
        [{ method := .TIME, amount := 3 / 2, unit := .DAY, frequency := some .MONTHLY
           accruesAt := some .START_OF_PERIOD, id := nextRuleId }]) ]

/-- A run of operations up to an edit, and the scheduled jobs after it. -/
structure Edited where
  edits : List (Db × Op × Db)
  start : Db
  jobs : List (Db × Op × Db)
  finish : Db

/-- The edit, and the scheduled jobs of two months. -/
def editThenAccrue (day : Date) : Except Error Edited := do
  let (edits, start) ← Op.runAll directory (editedFrom day) .empty
  let (jobs, finish) ← Op.runAll directory
    [.runScheduled "cmp_warp_demo" (ofYmd 2026 1 31),
      .runScheduled "cmp_warp_demo" (ofYmd 2026 2 28)]
    start
  return ⟨edits, start, jobs, finish⟩

/-- They are runs from a reachable state. -/
theorem editThenAccrue_ok {day : Date} {r : Edited} (h : editThenAccrue day = .ok r) :
    Reachable directory r.start ∧ Run directory r.start r.jobs r.finish := by
  obtain ⟨⟨edits, start⟩, hedits, h⟩ := Except.bind_eq_ok.mp h
  obtain ⟨⟨jobs, finish⟩, hjobs, h⟩ := Except.bind_eq_ok.mp h
  cases h
  exact ⟨⟨_, run_of_runAll hedits⟩, run_of_runAll hjobs⟩

end Demo

/-- A version that begins on January 15 credits January again. -/
theorem period_credited_twice :
    ¬ ∀ (dir : Directory) (frequency : Schedule) (accruesAt : AccruesAt) (a : PolicyAssignment)
      (l : List (Db × Op × Db)) (db₀ db : Db), Reachable dir db₀ → Run dir db₀ l db →
      (∀ x ∈ l, x.2.1.IsScheduled) →
      (∀ e ∈ db₀.ledger.rows, e.sourceType ≠ .SCHEDULED_ACCRUAL) →
      a ∈ db₀.catalog.assignments.rows →
      db₀.catalog.SharesSchedule a.policyId frequency accruesAt →
      ∀ x ∈ l, CreditedOnce a x.2.2.ledger := by
  intro hclaim
  have hrun : (Demo.editThenAccrue (ofYmd 2026 1 15)).passes (fun r =>
      (∀ x ∈ r.jobs, x.2.1.IsScheduled) ∧
        (∀ e ∈ r.start.ledger.rows, e.sourceType ≠ .SCHEDULED_ACCRUAL) ∧
        Demo.assignment ∈ r.start.catalog.assignments.rows ∧
        r.start.catalog.SharesSchedule Demo.assignment.policyId .MONTHLY .START_OF_PERIOD ∧
        ∃ e ∈ r.finish.ledger.rows, ∃ f ∈ r.finish.ledger.rows, e ≠ f ∧
          e.entryType = .ACCRUAL ∧ e.sourceType = .SCHEDULED_ACCRUAL ∧
          e.sourceId = scheduledSource Demo.assignmentId Demo.ruleId (ofYmd 2026 1 1) ∧
          f.entryType = .ACCRUAL ∧ f.sourceType = .SCHEDULED_ACCRUAL ∧
          f.sourceId = scheduledSource Demo.assignmentId Demo.nextRuleId (ofYmd 2026 1 1))
            = true := by
    decide +kernel
  obtain ⟨r, hr, htest⟩ := Except.ok_of_passes hrun
  obtain ⟨hjobs, hfresh, ha, hshare, e, he, f, hf, hne, he₁, he₂, he₃, hf₁, hf₂, hf₃⟩ :=
    of_decide_eq_true htest
  obtain ⟨hreach, hl⟩ := Demo.editThenAccrue_ok hr
  have honce : CreditedOnce Demo.assignment r.finish.ledger :=
    hl.last_of_forall (G := fun db => CreditedOnce Demo.assignment db.ledger)
      (fun _ e he _ _ hcredits => absurd hcredits.2.1 (hfresh e he))
      (hclaim _ _ _ _ _ _ _ hreach hl hjobs hfresh ha hshare)
  exact hne (honce _ e he f hf ⟨he₁, he₂, _, he₃⟩ ⟨hf₁, hf₂, _, hf₃⟩)

/-- A version that begins with February credits each month once. -/
theorem credited_once_at_boundary :
    ∃ db₀ l db, Reachable Demo.directory db₀ ∧ Run Demo.directory db₀ l db ∧
      ∀ x ∈ l, CreditedOnce Demo.assignment x.2.2.ledger := by
  have hrun : (Demo.editThenAccrue (ofYmd 2026 2 1)).passes (fun r =>
      (∀ x ∈ r.jobs, ¬ x.2.1.Edits) ∧
        (∀ e ∈ r.start.ledger.rows, e.sourceType ≠ .SCHEDULED_ACCRUAL) ∧
        Demo.assignment ∈ r.start.catalog.assignments.rows ∧
        r.start.catalog.SharesSchedule Demo.assignment.policyId .MONTHLY .START_OF_PERIOD ∧
        ∀ x ∈ r.jobs, KeepsPeriods Demo.directory .MONTHLY .START_OF_PERIOD Demo.assignment x.1
          x.2.1) = true := by
    decide +kernel
  obtain ⟨r, hr, htest⟩ := Except.ok_of_passes hrun
  obtain ⟨hedits, hfresh, ha, hshare, hkeeps⟩ := of_decide_eq_true htest
  obtain ⟨hreach, hl⟩ := Demo.editThenAccrue_ok hr
  exact ⟨r.start, r.jobs, r.finish, hreach, hl,
    (credited_once_iff hl hedits hfresh ha hshare).mpr hkeeps⟩

end TimeOff
