import TimeOff.Policies.Tiers

/-!
# The policy editor

The form of the web application opens a policy and saves its next version. The
texts of its number fields are empty or exact numbers, and like the code it
tests texts and numbers for truth.

The form is narrower than the rules of the service. It has fields for two tiers,
one amount each, for one schedule and one amount of work, and it takes no
minutes for no entry. `denotes_iff` says that a version which is opened and
saved without an edit keeps its terms exactly if the form can say them
(`PolicyVersion.InForm`), one condition for each of these limits.

The proof compares the saved payload with the version field by field. For the
rules, what acceptance promises is collected first (`Acceptable`): tiers that
begin at different tenures, one of them at none, with one method and one
schedule. Then the sorted list has the base rule in front, the payload has the
two lowest tiers (`rules_savePolicy`), and it has all of them exactly if there
are no more and each is what the form makes of it (`savedRule_eq_iff`,
`saved_perm_iff`).
-/

namespace TimeOff

open Gregorian

/-- The text of a number field. -/
inductive NumberText
  | empty
  | number (q : ℚ)
deriving DecidableEq, Repr

namespace NumberText

/-- Only the empty text is taken for false. -/
def truthy : NumberText → Bool
  | empty => false
  | number _ => true

/-- `Number(text)` -/
def toNumber : NumberText → ℚ
  | empty => 0
  | number q => q

/-- `minutes ? String(minutes / 60) : otherwise`, where no minutes are false too. -/
def ofMinutes (minutes : Option Int) (otherwise : NumberText) : NumberText :=
  match minutes with
  | none => otherwise
  | some n => if n = 0 then otherwise else number (n / 60)

/-- `text ? Number(text) * 60 : null` -/
def toMinutes (text : NumberText) : Option ℚ :=
  if text.truthy then some (text.toNumber * 60) else none

end NumberText

/-- A policy as the catalogue lists it. -/
structure PolicyOut where
  name : String
  allEmployees : Bool
  groupIds : List Uuid
  currentVersion : PolicyVersion
deriving DecidableEq, Repr

/-- The state of the form. -/
structure PolicyForm where
  policyName : String
  allEmployees : Bool
  policyGroupIds : List Uuid
  effectiveFrom : Date
  changeReason : String
  kind : PolicyKind
  accrualMethod : AccrualMethod
  amount : NumberText
  frequency : Schedule
  perHoursWorked : NumberText
  newHireProration : NewHireProration
  allowNegative : Bool
  negativeFloor : NumberText
  maxBalance : NumberText
  carryoverCap : NumberText
  expires : Bool
  tenureMonths : NumberText
  tenureAmount : NumberText
deriving DecidableEq, Repr

/-- A rule of a payload: the amount is still a text. -/
structure RulePayload where
  method : AccrualMethod
  amount : NumberText
  unit : RateUnit
  frequency : Option Schedule
  accruesAt : Option AccruesAt
  perMinutesWorked : Option ℚ
  minTenureMonths : ℚ
deriving DecidableEq, Repr

/-- The payload of a policy write, as the editor sends it. -/
structure PolicyPayload where
  name : String
  effectiveFrom : Date
  kind : PolicyKind
  rules : List RulePayload
  allEmployees : Bool
  groupIds : List Uuid
  changeReason : String
  newHireProration : NewHireProration
  allowNegative : Bool
  negativeFloorMinutes : ℚ
  maxBalanceMinutes : Option ℚ
  carryoverCapMinutes : Option ℚ
  expiresAtPeriodEnd : Bool
deriving DecidableEq, Repr

/-- The order of the editor's tiers. -/
def tenureLE (left right : AccrualRule) : Prop := left.minTenureMonths ≤ right.minTenureMonths

instance : DecidableRel tenureLE := fun left right =>
  inferInstanceAs (Decidable (left.minTenureMonths ≤ right.minTenureMonths))

instance : Std.Total tenureLE := ⟨fun left _ => le_total left.minTenureMonths _⟩

instance : IsTrans AccrualRule tenureLE := ⟨fun _ _ _ => le_trans⟩

/-- `beginPolicyUpdate` -/
def beginPolicyUpdate (today : Date) (policy : PolicyOut) : PolicyForm :=
  let version := policy.currentVersion
  let rules := version.rules.insertionSort tenureLE
  let base := rules[0]?
  let tier := rules[1]?
  { policyName := policy.name
    allEmployees := policy.allEmployees
    policyGroupIds := policy.groupIds
    effectiveFrom :=
      if version.effectiveFrom < today then today else version.effectiveFrom.addDays 1
    changeReason := ""
    kind := version.kind
    accrualMethod := (base.map (·.method)).getD .TIME
    amount := .number ((base.map (·.amount)).getD 20)
    frequency := (base.bind (·.frequency)).getD .YEARLY
    perHoursWorked := .ofMinutes (base.bind (·.perMinutesWorked)) (.number 30)
    newHireProration := version.newHireProration
    allowNegative := version.allowNegative
    negativeFloor :=
      .number ((if version.negativeFloorMinutes = 0 then -480
        else version.negativeFloorMinutes : Int) / 60)
    maxBalance := .ofMinutes version.maxBalanceMinutes .empty
    carryoverCap := .ofMinutes version.carryoverCapMinutes .empty
    expires := version.expiresAtPeriodEnd
    tenureMonths := (tier.map fun rule => .number rule.minTenureMonths).getD .empty
    tenureAmount := (tier.map fun rule => .number rule.amount).getD .empty }

/-- The rule that the form describes, at one amount and tenure. -/
def PolicyForm.rule (form : PolicyForm) (ruleAmount : NumberText) (minTenureMonths : ℚ) :
    RulePayload :=
  match form.accrualMethod with
  | .TIME =>
    { method := .TIME, amount := ruleAmount, unit := .DAY, frequency := some form.frequency
      accruesAt := some .START_OF_PERIOD, perMinutesWorked := none, minTenureMonths }
  | .HOURS_WORKED =>
    { method := .HOURS_WORKED, amount := ruleAmount, unit := .HOUR, frequency := none
      accruesAt := none, perMinutesWorked := some (form.perHoursWorked.toNumber * 60)
      minTenureMonths }

/-- `savePolicy` -/
def savePolicy (form : PolicyForm) : PolicyPayload :=
  { name := form.policyName
    effectiveFrom := form.effectiveFrom
    kind := form.kind
    rules :=
      match form.kind with
      | .UNLIMITED => []
      | .ACCRUAL =>
        form.rule form.amount 0 ::
          if form.tenureMonths.truthy && form.tenureAmount.truthy then
            [form.rule form.tenureAmount form.tenureMonths.toNumber]
          else []
    allEmployees := form.allEmployees
    groupIds := if form.allEmployees then [] else form.policyGroupIds
    changeReason := form.changeReason
    newHireProration := form.newHireProration
    allowNegative := form.allowNegative
    negativeFloorMinutes := if form.allowNegative then form.negativeFloor.toNumber * 60 else 0
    maxBalanceMinutes := form.maxBalance.toMinutes
    carryoverCapMinutes := form.carryoverCap.toMinutes
    expiresAtPeriodEnd := form.expires }

/-! ## What the payload says of the version -/

/-- A rule as a payload would give it exactly. -/
def RuleFields.payload (rule : RuleFields) : RulePayload :=
  { method := rule.method
    amount := .number rule.amount
    unit := rule.unit
    frequency := rule.frequency
    accruesAt := rule.accruesAt
    perMinutesWorked := rule.perMinutesWorked.map fun n : Int => (n : ℚ)
    minTenureMonths := rule.minTenureMonths }

/-- The payload has the terms of the version, its rules in any order. -/
structure PolicyPayload.Denotes (payload : PolicyPayload) (version : PolicyVersion) : Prop where
  kind : payload.kind = version.kind
  rules : payload.rules.Perm (version.rules.map (·.payload))
  proration : payload.newHireProration = version.newHireProration
  allowNegative : payload.allowNegative = version.allowNegative
  floor : payload.negativeFloorMinutes = version.negativeFloorMinutes
  maxBalance : payload.maxBalanceMinutes = version.maxBalanceMinutes.map fun n : Int => (n : ℚ)
  carryover : payload.carryoverCapMinutes = version.carryoverCapMinutes.map fun n : Int => (n : ℚ)
  expires : payload.expiresAtPeriodEnd = version.expiresAtPeriodEnd

/-- The version is one that a policy write validated and stored, its rules in
any order. -/
def PolicyVersion.Accepted (version : PolicyVersion) : Prop :=
  ∃ written : PolicyVersion, written.Validated ∧
    written.toVersionFields = version.toVersionFields ∧ version.rules.Perm written.rules

/-! ## What acceptance promises the editor

The validation of the service, and the types of the payload, as far as the form
relies on them. -/

/-- The rules of an accrual policy that was accepted, amounts apart. -/
structure Acceptable (rules : List AccrualRule) : Prop where
  once : (rules.map (·.minTenureMonths)).Nodup
  zero : 0 ∈ rules.map (·.minTenureMonths)
  nonneg : ∀ r ∈ rules, 0 ≤ r.minTenureMonths
  method : ∀ r ∈ rules, ∀ r' ∈ rules, r.method = r'.method
  schedule : ∀ r ∈ rules, ∀ r' ∈ rules, r.frequency = r'.frequency
  time : ∀ r ∈ rules, r.method = .TIME → ∃ f, r.frequency = some f
  hours : ∀ r ∈ rules, r.method = .HOURS_WORKED →
    r.frequency = none ∧ r.accruesAt = none ∧ ∃ per, r.perMinutesWorked = some per ∧ per ≠ 0

/-- An accepted accrual version has such rules. -/
theorem acceptable_of_validateVersion {fields : VersionFields} {rules : List AccrualRule}
    (h : PolicyService.validateVersion fields rules = .ok ()) (hkind : fields.kind = .ACCRUAL) :
    Acceptable rules := by
  obtain ⟨hrange, -⟩ := PolicyService.inRange_of_validateVersion h
  have hpolicy := PolicyService.validatePolicy_of_validateVersion h
  rw [hkind] at hpolicy
  obtain ⟨⟨method, hmethod⟩, hzero, hper⟩ := method_of_validatePolicy hpolicy
  obtain ⟨honce, hshared⟩ := tiers_of_validatePolicy hpolicy
  rw [List.map_map] at honce hzero
  have hmem : ∀ r ∈ rules, r.toRuleFields ∈ rules.map (·.toRuleFields) :=
    fun r hr => List.mem_map_of_mem hr
  constructor
  · exact honce
  · exact hzero
  · exact fun r hr => (hrange r hr).2.2
  · exact fun r hr r' hr' => (hmethod _ (hmem r hr)).trans (hmethod _ (hmem r' hr')).symm
  · exact fun r hr r' hr' => (hshared _ (hmem r hr) _ (hmem r' hr')).1
  · intro r hr htime
    obtain ⟨f, -, hf, -⟩ := (calendar_of_validatePolicy hpolicy (hmem r hr)).1 htime
    exact ⟨f, hf⟩
  · intro r hr hhours
    obtain ⟨hfrequency, hpoint⟩ := (calendar_of_validatePolicy hpolicy (hmem r hr)).2 hhours
    exact ⟨hfrequency, hpoint, hper _ (hmem r hr) hhours⟩

theorem Acceptable.perm {rules rules' : List AccrualRule} (h : Acceptable rules)
    (hperm : rules'.Perm rules) : Acceptable rules' where
  once := (hperm.map _).nodup_iff.mpr h.once
  zero := (hperm.map _).mem_iff.mpr h.zero
  nonneg r hr := h.nonneg r (hperm.subset hr)
  method r hr r' hr' := h.method r (hperm.subset hr) r' (hperm.subset hr')
  schedule r hr r' hr' := h.schedule r (hperm.subset hr) r' (hperm.subset hr')
  time r hr := h.time r (hperm.subset hr)
  hours r hr := h.hours r (hperm.subset hr)

theorem Acceptable.withAmounts {rules : List AccrualRule} (h : Acceptable rules)
    (amount : AccrualRule → ℚ) :
    Acceptable (rules.map fun r => { r with amount := amount r }) := by
  constructor
  · rw [List.map_map]
    exact h.once
  · rw [List.map_map]
    exact h.zero
  · exact List.forall_mem_map.mpr h.nonneg
  · exact List.forall_mem_map.mpr fun r hr => List.forall_mem_map.mpr (h.method r hr)
  · exact List.forall_mem_map.mpr fun r hr => List.forall_mem_map.mpr (h.schedule r hr)
  · exact List.forall_mem_map.mpr h.time
  · exact List.forall_mem_map.mpr h.hours

namespace PolicyVersion.Accepted

variable {version : PolicyVersion}

/-- The payload the version was written from. -/
theorem payload (h : version.Accepted) :
    ∃ rules, PolicyService.validateVersion version.toVersionFields rules = .ok () ∧
      version.rules.Perm
        (rules.map fun r => { r with amount := Decimal.quantize 4 r.amount }) := by
  obtain ⟨written, ⟨rules, hvalid, hstored⟩, hfields, hperm⟩ := h
  rw [hfields] at hvalid
  rw [PolicyService.stored_eq_map hstored] at hperm
  exact ⟨rules, hvalid, hperm⟩

/-- What acceptance says of a stored version. -/
theorem rules_eq_nil (h : version.Accepted) (hkind : version.kind = .UNLIMITED) :
    version.rules = [] := by
  obtain ⟨rules, hvalid, hperm⟩ := h.payload
  have hpolicy := PolicyService.validatePolicy_of_validateVersion hvalid
  rw [hkind] at hpolicy
  cases rules with
  | nil => exact hperm.eq_nil
  | cons r rest => cases hpolicy

theorem acceptable (h : version.Accepted) (hkind : version.kind = .ACCRUAL) :
    Acceptable version.rules := by
  obtain ⟨rules, hvalid, hperm⟩ := h.payload
  exact ((acceptable_of_validateVersion hvalid hkind).withAmounts _).perm hperm

theorem floor_ne_zero (h : version.Accepted) (hallow : version.allowNegative = true) :
    version.negativeFloorMinutes ≠ 0 := by
  obtain ⟨rules, hvalid, -⟩ := h.payload
  intro hzero
  have hbalance := PolicyService.balance_of_validateVersion hvalid
  rw [hallow, hzero] at hbalance
  cases hbalance

theorem max_ne_zero (h : version.Accepted) : version.maxBalanceMinutes ≠ some 0 := by
  obtain ⟨rules, hvalid, -⟩ := h.payload
  obtain ⟨-, -, hmax, -⟩ := PolicyService.inRange_of_validateVersion hvalid
  exact fun hzero => absurd (hmax 0 hzero) (by decide)

end PolicyVersion.Accepted

/-! ## What the editor saves

The form opened on a version and saved as it is: what becomes of each rule and
each limit. -/

/-- A rule of the version as the editor saves it: of the schedule and the work,
the form keeps those of the base rule. -/
def savedRule (base rule : RuleFields) : RulePayload :=
  match base.method with
  | .TIME =>
    { method := .TIME, amount := .number rule.amount, unit := .DAY, frequency := base.frequency
      accruesAt := some .START_OF_PERIOD, perMinutesWorked := none
      minTenureMonths := rule.minTenureMonths }
  | .HOURS_WORKED =>
    { method := .HOURS_WORKED, amount := .number rule.amount, unit := .HOUR, frequency := none
      accruesAt := none, perMinutesWorked := base.perMinutesWorked.map fun n : Int => (n : ℚ)
      minTenureMonths := rule.minTenureMonths }

/-- The form has fields for what the rule says. -/
def RuleFields.InForm (rule : RuleFields) : Prop :=
  match rule.method with
  | .TIME =>
    rule.unit = .DAY ∧ rule.accruesAt = some .START_OF_PERIOD ∧ rule.perMinutesWorked = none
  | .HOURS_WORKED => rule.unit = .HOUR

/-- Minutes that are not zero survive the field. -/
theorem toNumber_ofMinutes {n : Int} (hn : n ≠ 0) (otherwise : NumberText) :
    (NumberText.ofMinutes (some n) otherwise).toNumber * 60 = n := by
  simp only [NumberText.ofMinutes]
  rw [if_neg hn]
  exact div_mul_cancel₀ _ (by norm_num)

/-- The editor saves the two lowest tiers. -/
theorem rules_savePolicy (today : Date) {policy : PolicyOut} {base : AccrualRule}
    {rest : List AccrualRule} (hkind : policy.currentVersion.kind = .ACCRUAL)
    (hsorted : policy.currentVersion.rules.insertionSort tenureLE = base :: rest)
    (h : Acceptable (base :: rest)) (hzero : base.minTenureMonths = 0) :
    (savePolicy (beginPolicyUpdate today policy)).rules =
      ((base :: rest).take 2).map fun rule => savedRule base.toRuleFields rule.toRuleFields := by
  have hbase : base ∈ base :: rest := List.mem_cons_self ..
  -- the form keeps the method and schedule of the first rule, and gives them to every tier
  have hrule (rule : AccrualRule) :
      (beginPolicyUpdate today policy).rule (.number rule.amount) rule.minTenureMonths =
        savedRule base.toRuleFields rule.toRuleFields := by
    simp only [PolicyForm.rule, beginPolicyUpdate, savedRule, hsorted, List.getElem?_cons_zero,
      Option.map_some, Option.getD_some, Option.bind_some]
    cases hmethod : base.method with
    | TIME =>
      obtain ⟨f, hf⟩ := h.time base hbase hmethod
      simp only [hf, Option.getD_some]
    | HOURS_WORKED =>
      obtain ⟨-, -, per, hper, hpos⟩ := h.hours base hbase hmethod
      simp only [hper, toNumber_ofMinutes hpos, Option.map_some]
  have hbaseRule := hrule base
  rw [hzero, Int.cast_zero] at hbaseRule
  have hamount : (beginPolicyUpdate today policy).amount = .number base.amount := by
    simp only [beginPolicyUpdate, hsorted, List.getElem?_cons_zero, Option.map_some,
      Option.getD_some]
  have hform : (beginPolicyUpdate today policy).kind = .ACCRUAL := hkind
  simp only [savePolicy, hform, hamount, hbaseRule]
  cases rest with
  | nil =>
    -- without a second tier its field is empty, and the payload has one rule
    have hmonths : (beginPolicyUpdate today policy).tenureMonths = .empty := by
      simp only [beginPolicyUpdate, hsorted]
      rfl
    rw [hmonths]
    rfl
  | cons tier rest =>
    have hmonths : (beginPolicyUpdate today policy).tenureMonths =
        .number tier.minTenureMonths := by
      simp only [beginPolicyUpdate, hsorted]
      rfl
    have htier : (beginPolicyUpdate today policy).tenureAmount = .number tier.amount := by
      simp only [beginPolicyUpdate, hsorted]
      rfl
    rw [hmonths, htier]
    exact congrArg (savedRule base.toRuleFields base.toRuleFields :: [·]) (hrule tier)

/-- A tier is saved as it is if the form has fields for it and its work is that
of the base rule. -/
theorem savedRule_eq_iff {base rule : RuleFields} (hmethod : rule.method = base.method)
    (hfrequency : rule.frequency = base.frequency)
    (hhours : rule.method = .HOURS_WORKED → rule.frequency = none ∧ rule.accruesAt = none) :
    savedRule base rule = rule.payload ↔
      rule.InForm ∧
        (rule.method = .HOURS_WORKED → rule.perMinutesWorked = base.perMinutesWorked) := by
  have hcast : Function.Injective (Option.map fun n : Int => (n : ℚ)) :=
    Option.map_injective Int.cast_injective
  unfold savedRule RuleFields.payload RuleFields.InForm
  rw [← hmethod, ← hfrequency]
  cases hcase : rule.method with
  | TIME =>
    simp [eq_comm]
  | HOURS_WORKED =>
    obtain ⟨hnone, hnone'⟩ := hhours hcase
    simp [hnone, hnone', hcast.eq_iff, eq_comm]

/-- The lowest tier begins at no tenure. -/
theorem base_of_sorted {rules : List AccrualRule} (h : Acceptable rules) :
    ∃ base rest, rules.insertionSort tenureLE = base :: rest ∧ base.minTenureMonths = 0 := by
  have hsorted := h.perm (List.perm_insertionSort tenureLE rules)
  have hpairwise := List.pairwise_insertionSort tenureLE rules
  generalize rules.insertionSort tenureLE = sorted at hsorted hpairwise
  cases sorted with
  | nil => exact absurd hsorted.zero List.not_mem_nil
  | cons base rest =>
    refine ⟨base, rest, rfl, ?_⟩
    have hnonneg := hsorted.nonneg base (List.mem_cons_self ..)
    obtain ⟨zero, hzero, htenure⟩ := List.mem_map.mp hsorted.zero
    rcases List.mem_cons.mp hzero with rfl | hzero
    · exact htenure
    · have hle : base.minTenureMonths ≤ zero.minTenureMonths :=
        List.rel_of_pairwise_cons hpairwise hzero
      omega

/-- Saved tiers begin when they did. -/
theorem minTenureMonths_savedRule (base rule : RuleFields) :
    (savedRule base rule).minTenureMonths = rule.payload.minTenureMonths := by
  unfold savedRule
  cases base.method <;> rfl

/-- So they begin at different tenures. -/
theorem nodup_payload {rules : List AccrualRule} (h : Acceptable rules) :
    (rules.map fun r => r.payload.minTenureMonths).Nodup := by
  have hnodup := h.once.map (f := fun n : Int => (n : ℚ)) Int.cast_injective
  rwa [List.map_map] at hnodup

/-- The form has no work for a rule by time. -/
theorem RuleFields.InForm.work {rule : RuleFields} (h : rule.InForm) (htime : rule.method = .TIME) :
    rule.perMinutesWorked = none := by
  unfold RuleFields.InForm at h
  rw [htime] at h
  exact h.2.2

/-- The saved tiers are those of the version if there are no more than two, the
form has fields for them, and one field is enough for their work. -/
theorem saved_perm_iff {base : AccrualRule} {rest : List AccrualRule}
    (h : Acceptable (base :: rest)) :
    (((base :: rest).take 2).map fun r => savedRule base.toRuleFields r.toRuleFields).Perm
        ((base :: rest).map (·.payload)) ↔
      (base :: rest).length ≤ 2 ∧ (∀ r ∈ base :: rest, r.InForm) ∧
        ∀ r ∈ base :: rest, ∀ r' ∈ base :: rest, r.perMinutesWorked = r'.perMinutesWorked := by
  have hbase : base ∈ base :: rest := List.mem_cons_self ..
  have heq : ∀ r ∈ base :: rest, savedRule base.toRuleFields r.toRuleFields = r.payload ↔ _ :=
    fun r hr => savedRule_eq_iff (h.method r hr base hbase) (h.schedule r hr base hbase)
      fun hhours => ⟨(h.hours r hr hhours).1, (h.hours r hr hhours).2.1⟩
  constructor
  · intro hperm
    have hlength := hperm.length_eq
    rw [List.length_map, List.length_map, List.length_take] at hlength
    have htwo : (base :: rest).length ≤ 2 := by omega
    rw [List.take_of_length_le htwo] at hperm
    -- payloads of different tiers differ, so each rule is its own
    have hsame : ∀ r ∈ base :: rest, r.InForm ∧
        (r.method = .HOURS_WORKED → r.perMinutesWorked = base.perMinutesWorked) :=
      fun r hr => (heq r hr).mp (List.eq_of_map_perm
        (fun r _ => minTenureMonths_savedRule base.toRuleFields r.toRuleFields)
        (nodup_payload h) hperm hr)
    refine ⟨htwo, fun r hr => (hsame r hr).1, fun r hr r' hr' => ?_⟩
    cases hmethod : r.method with
    | TIME =>
      have hmethod' := (h.method r' hr' r hr).trans hmethod
      rw [(hsame r hr).1.work hmethod, (hsame r' hr').1.work hmethod']
    | HOURS_WORKED =>
      have hmethod' := (h.method r' hr' r hr).trans hmethod
      rw [(hsame r hr).2 hmethod, (hsame r' hr').2 hmethod']
  · rintro ⟨htwo, hform, hwork⟩
    rw [List.take_of_length_le htwo]
    refine List.Perm.of_eq (List.map_congr_left fun r hr => ?_)
    exact (heq r hr).mpr ⟨hform r hr, fun _ => hwork r hr base hbase⟩

/-- The rules are kept if the form can say them. -/
theorem rules_iff (today : Date) {policy : PolicyOut} (h : policy.currentVersion.Accepted) :
    (savePolicy (beginPolicyUpdate today policy)).rules.Perm
        (policy.currentVersion.rules.map (·.payload)) ↔
      policy.currentVersion.rules.length ≤ 2 ∧
        (∀ r ∈ policy.currentVersion.rules, r.InForm) ∧
        ∀ r ∈ policy.currentVersion.rules, ∀ r' ∈ policy.currentVersion.rules,
          r.perMinutesWorked = r'.perMinutesWorked := by
  cases hkind : policy.currentVersion.kind with
  | UNLIMITED =>
    have hform : (beginPolicyUpdate today policy).kind = .UNLIMITED := hkind
    simp only [savePolicy, hform, h.rules_eq_nil hkind]
    simp
  | ACCRUAL =>
    have hrules := h.acceptable hkind
    obtain ⟨base, rest, hsorted, hzero⟩ := base_of_sorted hrules
    have hperm := List.perm_insertionSort tenureLE policy.currentVersion.rules
    rw [hsorted] at hperm
    have hladder := hrules.perm hperm
    rw [rules_savePolicy today hkind hsorted hladder hzero, ← hperm.length_eq]
    simp only [← hperm.mem_iff]
    exact ((hperm.map (·.payload)).congr_right _).symm.trans (saved_perm_iff hladder)

/-- The form can say all that the version says: its carryover limit is not zero,
which the form takes for none; it has no floor that is not allowed; it has at
most two tiers, in days at the start of a period or in hours, for the same
work. -/
structure PolicyVersion.InForm (version : PolicyVersion) : Prop where
  carryover : version.carryoverCapMinutes ≠ some 0
  floor : version.allowNegative = true ∨ version.negativeFloorMinutes = 0
  tiers : version.rules.length ≤ 2
  rules : ∀ r ∈ version.rules, r.InForm
  work : ∀ r ∈ version.rules, ∀ r' ∈ version.rules, r.perMinutesWorked = r'.perMinutesWorked

/-- A limit is kept unless it is zero. -/
theorem toMinutes_ofMinutes (minutes : Option Int) :
    (NumberText.ofMinutes minutes .empty).toMinutes = minutes.map (fun n : Int => (n : ℚ)) ↔
      minutes ≠ some 0 := by
  cases minutes with
  | none => exact ⟨fun _ => by decide, fun _ => rfl⟩
  | some n =>
    by_cases hn : n = 0
    · subst hn
      exact ⟨fun h => absurd h (by simp [NumberText.ofMinutes, NumberText.toMinutes,
        NumberText.truthy]), fun h => absurd rfl h⟩
    · have hnumber := toNumber_ofMinutes hn .empty
      have htruthy : (NumberText.ofMinutes (some n) .empty).truthy = true := by
        simp only [NumberText.ofMinutes]
        rw [if_neg hn]
        rfl
      unfold NumberText.toMinutes
      rw [if_pos htruthy, hnumber]
      exact ⟨fun _ h => hn (Option.some.inj h), fun _ => rfl⟩

namespace Demo

/-- Twenty days a year. -/
def yearly (carryover : Option Int) : PolicyOut where
  name := "Vacation"
  allEmployees := true
  groupIds := []
  currentVersion :=
    { id := versionId, policyId := policyId, versionNo := 1, effectiveFrom := ofYmd 2026 1 1
      kind := .ACCRUAL, carryoverCapMinutes := carryover
      rules := [{ id := ruleId, method := .TIME, amount := 20, unit := .DAY
                  frequency := some .YEARLY, accruesAt := some .START_OF_PERIOD }] }

/-- A policy write stores it. -/
theorem yearly_accepted (carryover : Option Int) (h : carryover = some 0 ∨ carryover = some 480) :
    (yearly carryover).currentVersion.Accepted := by
  have hstored : (yearly none).currentVersion.rules.mapM PolicyService.storedRule =
      .ok (yearly none).currentVersion.rules := by
    decide +kernel
  refine ⟨(yearly carryover).currentVersion, ⟨(yearly none).currentVersion.rules, ?_, hstored⟩,
    rfl, .refl _⟩
  rcases h with rfl | rfl <;> decide +kernel

end Demo

/-- A carryover limit of zero is saved as none. -/
theorem carryover_lost :
    ¬ ∀ (today : Date) (policy : PolicyOut), policy.currentVersion.Accepted →
      (savePolicy (beginPolicyUpdate today policy)).Denotes policy.currentVersion := by
  intro h
  have hdenotes := h (ofYmd 2026 3 16) (Demo.yearly (some 0))
    (Demo.yearly_accepted (some 0) (by decide))
  exact absurd hdenotes.carryover (by decide)

/-- The floor is kept if negative balances are allowed, or it is zero. -/
theorem floor_iff (today : Date) {policy : PolicyOut} (h : policy.currentVersion.Accepted) :
    (savePolicy (beginPolicyUpdate today policy)).negativeFloorMinutes =
        policy.currentVersion.negativeFloorMinutes ↔
      policy.currentVersion.allowNegative = true ∨
        policy.currentVersion.negativeFloorMinutes = 0 := by
  have hform : (beginPolicyUpdate today policy).allowNegative =
      policy.currentVersion.allowNegative := rfl
  simp only [savePolicy]
  by_cases hallow : policy.currentVersion.allowNegative = true
  · rw [if_pos (hform.trans hallow)]
    simp only [beginPolicyUpdate, NumberText.toNumber]
    rw [if_neg (h.floor_ne_zero hallow)]
    exact ⟨fun _ => Or.inl hallow, fun _ => div_mul_cancel₀ _ (by norm_num)⟩
  · rw [if_neg (hform ▸ hallow), eq_comm, Int.cast_eq_zero]
    exact ⟨Or.inr, fun hor => hor.resolve_left hallow⟩

/-- A version that is opened and saved keeps its terms exactly if the form can
say them. -/
theorem denotes_iff (today : Date) (policy : PolicyOut) (h : policy.currentVersion.Accepted) :
    (savePolicy (beginPolicyUpdate today policy)).Denotes policy.currentVersion ↔
      policy.currentVersion.InForm := by
  constructor
  · intro hdenotes
    obtain ⟨htiers, hrules, hwork⟩ := (rules_iff today h).mp hdenotes.rules
    exact ⟨(toMinutes_ofMinutes _).mp hdenotes.carryover, (floor_iff today h).mp hdenotes.floor,
      htiers, hrules, hwork⟩
  · intro hform
    exact ⟨rfl, (rules_iff today h).mpr ⟨hform.tiers, hform.rules, hform.work⟩, rfl, rfl,
      (floor_iff today h).mpr hform.floor, (toMinutes_ofMinutes _).mpr h.max_ne_zero,
      (toMinutes_ofMinutes _).mpr hform.carryover, rfl⟩

/-- With a carryover limit of eight hours nothing changes. -/
theorem denotes_iff_of_yearly :
    (savePolicy (beginPolicyUpdate (ofYmd 2026 3 16) (Demo.yearly (some 480)))).Denotes
      (Demo.yearly (some 480)).currentVersion :=
  (denotes_iff _ _ (Demo.yearly_accepted _ (by decide))).mpr
    { carryover := by decide
      floor := by decide
      tiers := by decide
      rules := by
        intro r hr
        rw [List.mem_singleton.mp hr]
        exact ⟨rfl, rfl, rfl⟩
      work := by decide }

end TimeOff
