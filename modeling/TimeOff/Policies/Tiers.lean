import TimeOff.Accrual.Edits
import TimeOff.Domain.Tenure

/-!
# The tier of a tenure

The jobs take the highest tier that a tenure has reached, and post for the rule
that it is. They check nothing first: that there is a highest tier, that it is
one rule and that its rate can be computed is what validation leaves of a
version (`PolicyVersion.Laddered`), in whatever order its rules are read. Tenure
grows with the date, so the tier never falls (`tiers_select_one`).

Validation is made of the payload's rules and the jobs read the stored ones,
which differ in their generated ids and in the rounding of the column. Neither
touches what tiers are chosen by (`RuleFields.tier`): so a stored version is
laddered because the payload was (`laddered_of_validatePolicy`), and stays so
when its rules are permuted.
-/

namespace TimeOff

open Gregorian AccrualService

/-- The rules of a version are a ladder of tiers that begins at no tenure. -/
structure PolicyVersion.Laddered (v : PolicyVersion) (method : AccrualMethod) : Prop where
  uniform : ∀ r ∈ v.rules, r.method = method
  base : ∃ r ∈ v.rules, r.minTenureMonths = 0
  once : (v.rules.map (·.minTenureMonths)).Nodup
  ids : (v.rules.map (·.id)).Nodup
  rated : method = .HOURS_WORKED → ∀ r ∈ v.rules, ∃ per, r.perMinutesWorked = some per ∧ per ≠ 0

/-- What the jobs read of a rule to choose it. -/
def RuleFields.tier (r : RuleFields) : AccrualMethod × Option Int × Int :=
  (r.method, r.perMinutesWorked, r.minTenureMonths)

/-- Validated rules in any order are a ladder. -/
theorem laddered_of_validatePolicy {rules : List RuleFields} {v : PolicyVersion}
    (h : validatePolicy .ACCRUAL rules = .ok ())
    (hperm : (v.rules.map (·.toRuleFields.tier)).Perm (rules.map (·.tier)))
    (hids : (v.rules.map (·.id)).Nodup) : ∃ method, v.Laddered method := by
  obtain ⟨⟨method, huniform⟩, hzero, hper⟩ := method_of_validatePolicy h
  -- a rule of the version reads like a validated one, and the other way round
  have hread : ∀ r ∈ v.rules, ∃ f ∈ rules, f.tier = r.toRuleFields.tier := by
    intro r hr
    exact List.mem_map.mp (hperm.subset (List.mem_map_of_mem hr))
  have hmethod : ∀ r ∈ v.rules, r.method = method := by
    intro r hr
    obtain ⟨f, hf, htier⟩ := hread r hr
    exact (congrArg Prod.fst htier).symm.trans (huniform f hf)
  have honce : (v.rules.map (·.minTenureMonths)).Nodup := by
    have htiers := hperm.map (·.2.2)
    rw [List.map_map, List.map_map] at htiers
    exact htiers.nodup_iff.mpr (tiers_of_validatePolicy h).1
  refine ⟨method, hmethod, ?_, honce, hids, fun hhours r hr => ?_⟩
  · obtain ⟨f, hf, hbase⟩ := List.mem_map.mp hzero
    obtain ⟨r, hr, htier⟩ := List.mem_map.mp (hperm.symm.subset (List.mem_map_of_mem hf))
    exact ⟨r, hr, (congrArg (·.2.2) htier).trans hbase⟩
  · obtain ⟨f, hf, htier⟩ := hread r hr
    obtain ⟨per, hsome, hne⟩ := hper f hf ((huniform f hf).trans hhours)
    exact ⟨per, (congrArg (·.2.1) htier).symm.trans hsome, hne⟩

namespace PolicyVersion.Laddered

variable {v : PolicyVersion} {method : AccrualMethod}

/-- A tenure has reached a highest tier. -/
theorem selects (h : v.Laddered method) {tenure : Int} (ht : 0 ≤ tenure) :
    ∃ rule ∈ v.rules, selectedRule (eligibleRules v method tenure) = .ok rule ∧
      rule.minTenureMonths ≤ tenure ∧
      ∀ r ∈ v.rules, r.minTenureMonths ≤ tenure → r.minTenureMonths ≤ rule.minTenureMonths := by
  have heligible : ∀ r, r ∈ eligibleRules v method tenure ↔
      r ∈ v.rules ∧ r.minTenureMonths ≤ tenure := by
    intro r
    unfold eligibleRules
    rw [List.mem_filter, decide_eq_true_eq]
    exact ⟨fun hr => ⟨hr.1, hr.2.2⟩, fun hr => ⟨hr.1, h.uniform r hr.1, hr.2⟩⟩
  obtain ⟨base, hbase, hzero⟩ := h.base
  have hreached : base ∈ eligibleRules v method tenure :=
    (heligible base).mpr ⟨hbase, hzero.trans_le ht⟩
  obtain ⟨rule, hmax⟩ := Option.isSome_iff_exists.mp
    (List.isSome_maxOn?_of_mem (f := fun r : AccrualRule => r.minTenureMonths) hreached)
  obtain ⟨hrule, hle⟩ := (heligible rule).mp (List.maxOn?_mem hmax)
  refine ⟨rule, hrule, ?_, hle, fun r hr hrle => ?_⟩
  · unfold selectedRule
    rw [hmax]
  · have hge := List.le_apply_get_maxOn?_of_mem
      (f := fun r : AccrualRule => r.minTenureMonths) ((heligible r).mpr ⟨hr, hrle⟩)
    simpa only [hmax, Option.get_some] using hge

/-- A rule is determined by its id. -/
theorem rule_eq_of_id (h : v.Laddered method) {r s : AccrualRule} (hr : r ∈ v.rules)
    (hs : s ∈ v.rules) (hid : r.id = s.id) : r = s :=
  List.inj_on_of_nodup_map h.ids hr hs hid

/-- A higher tenure never selects a lower tier. -/
theorem selected_mono (h : v.Laddered method) {t t' : Int} (ht : 0 ≤ t) (htt : t ≤ t')
    {r r' : AccrualRule} (hr : selectedRule (eligibleRules v method t) = .ok r)
    (hr' : selectedRule (eligibleRules v method t') = .ok r') :
    r.minTenureMonths ≤ r'.minTenureMonths := by
  obtain ⟨rule, hrule, hselected, hle, -⟩ := h.selects ht
  obtain ⟨rule', -, hselected', -, hgreatest⟩ := h.selects (ht.trans htt)
  rw [← Except.ok.inj (hselected.symm.trans hr), ← Except.ok.inj (hselected'.symm.trans hr')]
  exact hgreatest rule hrule (hle.trans htt)

/-- The scheduled job raises nothing. -/
theorem decision_ok (h : v.Laddered .TIME) {s : RuleScope} (hv : s.version = v) (period : Period)
    (active : Option PolicyVersion) : ∃ posting, s.decision period active = .ok posting := by
  simp only [RuleScope.decision]
  split
  · exact ⟨_, rfl⟩
  · obtain ⟨rule, -, hselected, -⟩ := h.selects
      (completedTenureMonths_nonneg s.employee.startDate period.start)
    rw [hv, hselected]
    dsimp only [bind, Except.bind]
    split_ifs <;> exact ⟨_, rfl⟩

/-- Nor does the payroll job. -/
theorem payrollDecision_ok (h : v.Laddered method) {rule : AccrualRule} (hrule : rule ∈ v.rules)
    (companyId payrollRunId : String) (periodEnd : Date) (employeeId : String)
    (minutesWorked : Int) (employee : Employee) (assignment : PolicyAssignment) :
    ∃ posting, payrollDecision companyId payrollRunId periodEnd employeeId minutesWorked employee
      assignment v rule = .ok posting := by
  simp only [payrollDecision]
  split
  · exact ⟨_, rfl⟩
  next hhours =>
  have hmethod : method = .HOURS_WORKED := (h.uniform rule hrule).symm.trans (not_not.mp hhours)
  obtain ⟨selected, -, hselected, -⟩ := h.selects
    (completedTenureMonths_nonneg employee.startDate periodEnd)
  obtain ⟨per, hper, hne⟩ := h.rated hmethod rule hrule
  rw [hmethod] at hselected
  rw [hselected, hper]
  dsimp only [bind, Except.bind, payrollAmount]
  rw [if_neg hne]
  dsimp only
  split_ifs <;> exact ⟨_, rfl⟩

end PolicyVersion.Laddered

/-! ## Every version

The rules of stored versions are validated rules as the table keeps them, in any
order. Storing rounds amounts only, so it does not change which tier is
selected. -/

/-- What the jobs rely on when they choose a tier of a version: whoever was
hired whenever, one rule is selected, its tier is the greatest reached, and it
never falls. Neither job raises anything. -/
structure PolicyVersion.SelectsOneTier (v : PolicyVersion) : Prop where
  selects : ∃ method, (∀ r ∈ v.rules, r.method = method) ∧ ∀ hired : Date,
    (∀ day, ∃ selected ∈ v.rules,
      selectedRule (eligibleRules v method (completedTenureMonths hired day)) = .ok selected ∧
        (∃! rule, rule ∈ v.rules ∧ selected.id = rule.id) ∧
        IsGreatest {tier | tier ≤ completedTenureMonths hired day ∧
          ∃ rule ∈ v.rules, rule.minTenureMonths = tier} selected.minTenureMonths ∧
        ∀ rule ∈ v.rules, rule.minTenureMonths = selected.minTenureMonths → rule = selected) ∧
    ∀ day later, day ≤ later → ∀ r r',
      selectedRule (eligibleRules v method (completedTenureMonths hired day)) = .ok r →
      selectedRule (eligibleRules v method (completedTenureMonths hired later)) = .ok r' →
        r.minTenureMonths ≤ r'.minTenureMonths
  scheduled : ∀ companyId asOf employee assignment, ∀ rule ∈ v.rules,
    ∀ s ∈ ruleScope companyId asOf employee assignment v rule, ∀ period active,
      ∃ posting, s.decision period active = .ok posting
  payroll : ∀ companyId payrollRunId periodEnd employeeId minutesWorked employee assignment,
    ∀ rule ∈ v.rules, ∃ posting, payrollDecision companyId payrollRunId periodEnd employeeId
      minutesWorked employee assignment v rule = .ok posting

theorem PolicyVersion.Laddered.selectsOneTier {v : PolicyVersion} {method : AccrualMethod}
    (h : v.Laddered method) : v.SelectsOneTier := by
  refine ⟨⟨method, h.uniform, fun hired => ⟨fun day => ?_, fun day later hle r r' hr hr' => ?_⟩⟩,
    fun companyId asOf employee assignment rule hrule s hs period active => ?_,
    fun companyId payrollRunId periodEnd employeeId minutesWorked employee assignment rule hrule =>
      h.payrollDecision_ok hrule ..⟩
  · obtain ⟨selected, hmem, hselected, hle, hgreatest⟩ :=
      h.selects (completedTenureMonths_nonneg hired day)
    refine ⟨selected, hmem, hselected, ⟨selected, ⟨hmem, rfl⟩, ?_⟩,
      ⟨⟨hle, selected, hmem, rfl⟩, ?_⟩, fun rule hrule htier => ?_⟩
    · rintro rule ⟨hrule, hid⟩
      exact h.rule_eq_of_id hrule hmem hid.symm
    · rintro tier ⟨hreached, rule, hrule, rfl⟩
      exact hgreatest rule hrule hreached
    · exact List.inj_on_of_nodup_map h.once hrule hmem htier
  · exact h.selected_mono (completedTenureMonths_nonneg hired day)
      (completedTenureMonths_monotone hired hle) hr hr'
  · obtain ⟨htime, -, hscope⟩ := ruleScope_eq_some hs
    have hmethod : method = .TIME := (h.uniform rule hrule).symm.trans htime
    subst hmethod
    exact h.decision_ok (congrArg RuleScope.version hscope) period active

/-- The version is a policy write's: its rules were validated, then stored. -/
def PolicyVersion.Validated (v : PolicyVersion) : Prop :=
  ∃ rules, PolicyService.validateVersion v.toVersionFields rules = .ok () ∧
    rules.mapM PolicyService.storedRule = .ok v.rules

/-- Every stored version was validated. -/
theorem Reachable.validated {dir : Directory} {db : Db} (h : Reachable dir db) :
    ∀ v ∈ db.catalog.versions.rows, v.Validated := by
  obtain ⟨l, hl⟩ := h
  refine hl.invariant (I := fun db => ∀ v ∈ db.catalog.versions.rows, v.Validated)
    (fun v hv => absurd hv List.not_mem_nil) ?_
  intro t op u hvalidated hstep v hv
  rcases (effect_of_step hstep).appends with heq | ⟨w, rules, hvalid, hstored, hrows⟩
  · exact hvalidated v (heq ▸ hv)
  · rw [hrows] at hv
    rcases List.mem_append.mp hv with hv | hv
    · exact hvalidated v hv
    · rw [List.mem_singleton.mp hv]
      exact ⟨rules, hvalid, hstored⟩

theorem tiers_of_stored {rules stored : List AccrualRule}
    (h : rules.mapM PolicyService.storedRule = .ok stored) :
    stored.map (·.toRuleFields.tier) = (rules.map (·.toRuleFields)).map (·.tier) := by
  rw [PolicyService.stored_eq_map h, List.map_map, List.map_map]
  rfl

/-- The rules of an accepted accrual policy, read in any order, always select
one tier, and so do all stored versions; and a period that is prorated has
days. -/
theorem tiers_select_one :
    (∀ (rules : List RuleFields) (v : PolicyVersion), validatePolicy .ACCRUAL rules = .ok () →
      (∀ r ∈ rules, 0 ≤ r.minTenureMonths ∧ ∀ per ∈ r.perMinutesWorked, 0 < per) →
        (v.rules.map (·.toRuleFields)).Perm rules → (v.rules.map (·.id)).Nodup →
          v.SelectsOneTier) ∧
    (∀ (dir : Directory) (db : Db), Reachable dir db → ∀ v ∈ db.catalog.versions.rows,
      v.kind = .ACCRUAL → v.SelectsOneTier) ∧
    ∀ (first through : Date) (schedule : Schedule) (anchor : Date) (periods : List Period),
      iterPeriods first through schedule (some anchor) = .ok periods →
        ∀ period ∈ periods, 0 < period.finish.daysSince period.start + 1 := by
  refine ⟨fun rules v h _ hperm hids => ?_, fun dir db hdb v hv hkind => ?_,
    fun first through schedule anchor periods h period hperiod => ?_⟩
  · have htiers := hperm.map (·.tier)
    rw [List.map_map] at htiers
    obtain ⟨method, hladder⟩ := laddered_of_validatePolicy h htiers hids
    exact hladder.selectsOneTier
  · -- a stored version has the tiers of the rules that were validated
    obtain ⟨rules, hvalid, hstored⟩ := hdb.validated v hv
    have hpolicy := PolicyService.validatePolicy_of_validateVersion hvalid
    rw [hkind] at hpolicy
    have hids : (v.rules.map (·.id)).Nodup := by
      have hnodup := db.catalog.versions.holds.rule_unique
      rw [List.map_flatMap] at hnodup
      exact (List.nodup_flatMap.mp hnodup).1 v hv
    obtain ⟨method, hladder⟩ := laddered_of_validatePolicy hpolicy
      (List.Perm.of_eq (tiers_of_stored hstored)) hids
    exact hladder.selectsOneTier
  · obtain ⟨periods', h', hspec⟩ := mem_iterPeriods first through schedule anchor
    rw [h] at h'
    cases h'
    obtain ⟨hperiod, -, -⟩ := (hspec period).mp hperiod
    -- a period has at least its first day
    have hle := start_le_finish schedule anchor period.start
    rw [← hperiod, Date.le_iff] at hle
    unfold Date.daysSince
    omega

/-- Ten days a year, fifteen after two years, with the higher tier read first. -/
theorem tiers_select_one_of_two :
    PolicyVersion.SelectsOneTier
      { id := Demo.versionId, policyId := Demo.policyId, versionNo := 1
        effectiveFrom := ofYmd 2026 1 1, kind := .ACCRUAL
        rules :=
          [{ id := Demo.nextRuleId, method := .TIME, amount := 15, unit := .DAY
             frequency := some .YEARLY, accruesAt := some .START_OF_PERIOD, minTenureMonths := 24 },
           { id := Demo.ruleId, method := .TIME, amount := 10, unit := .DAY
             frequency := some .YEARLY, accruesAt := some .START_OF_PERIOD }] } :=
  tiers_select_one.1
    [{ method := .TIME, amount := 10, unit := .DAY, frequency := some .YEARLY
       accruesAt := some .START_OF_PERIOD },
     { method := .TIME, amount := 15, unit := .DAY, frequency := some .YEARLY
       accruesAt := some .START_OF_PERIOD, minTenureMonths := 24 }] _
    (by decide +kernel) (by decide) (.swap _ _ _) (by decide)

end TimeOff
