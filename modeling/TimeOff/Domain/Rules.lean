import TimeOff.Domain.Enums
import Mathlib.Algebra.Order.Ring.Rat
import Mathlib.Data.List.Nodup

/-!
# Validation of the policy rule language

`validate_policy` checks a list of rules as a payload gives it, before anything
is stored. An unlimited policy has none; an accrual policy has at least one, and
its rules are tiers: they share the method, and by time the schedule and the
accrual point of the first one, and they begin at different tenures, one of them
at none. Every rule has a positive rate; a rule by time names its calendar, a
rule by work the minutes it is for and no calendar.

The lemmas take an accepted list apart again, by what later modules need of it:
distinct tenures and one schedule (`tiers_of_validatePolicy`), a calendar for
each tier (`calendar_of_validatePolicy`) and the work that a rate by hours is
for (`method_of_validatePolicy`).
-/

namespace TimeOff

/-- An accrual rule as a payload gives it. -/
structure RuleFields where
  method : AccrualMethod
  amount : ℚ
  unit : RateUnit
  frequency : Option Schedule := none
  accruesAt : Option AccruesAt := none
  perMinutesWorked : Option Int := none
  minTenureMonths : Int := 0
deriving DecidableEq, Repr

/-- The checks on one rule, given the first rule of the policy. -/
def validateRule (baseline rule : RuleFields) : Except Error Unit :=
  if rule.amount ≤ 0 then
    .error (.policyRule "The accrual amount must be greater than zero.")
  else if rule.method ≠ baseline.method then
    .error (.policyRule "All tenure tiers must use the same accrual method.")
  else if rule.method = .TIME then
    if rule.frequency = none ∨ rule.accruesAt = none then
      .error (.policyRule "A time-based rule needs a frequency and accrual point.")
    else if rule.frequency ≠ baseline.frequency ∨ rule.accruesAt ≠ baseline.accruesAt then
      .error (.policyRule "All tenure tiers must share one schedule and accrual point.")
    else .ok ()
  else if rule.perMinutesWorked = none ∨ rule.perMinutesWorked = some 0 then
    .error (.policyRule "An hours-worked rule needs minutes worked per accrual.")
  else if rule.frequency ≠ none ∨ rule.accruesAt ≠ none then
    .error (.policyRule "An hours-worked rule cannot use a calendar frequency.")
  else .ok ()

/-- `validate_policy` -/
def validatePolicy (kind : PolicyKind) (rules : List RuleFields) : Except Error Unit :=
  match kind, rules with
  | .UNLIMITED, [] => .ok ()
  | .UNLIMITED, _ :: _ =>
    .error (.policyRule "An unlimited policy cannot have accrual rules.")
  | .ACCRUAL, [] => .error (.policyRule "An accrual policy needs at least one rule.")
  | .ACCRUAL, baseline :: rest =>
    let tiers : List Int := (baseline :: rest).map (·.minTenureMonths)
    if ¬ tiers.Nodup ∨ 0 ∉ tiers then
      .error (.policyRule "Tenure tiers must be unique and include a zero-month tier.")
    else forM (baseline :: rest) (validateRule baseline)

/-- Every rule of an accepted policy passed its checks. -/
theorem validateRule_of_forM {baseline : RuleFields} {rules : List RuleFields}
    (h : forM rules (validateRule baseline) = .ok ()) {rule : RuleFields} (hr : rule ∈ rules) :
    validateRule baseline rule = .ok () := by
  induction rules with
  | nil => cases hr
  | cons r rest ih =>
    rw [List.forM_cons] at h
    cases hv : validateRule baseline r with
    | error e =>
      rw [hv] at h
      cases h
    | ok u =>
      rw [hv] at h
      rcases List.mem_cons.mp hr with rfl | hr
      · exact hv
      · exact ih h hr

/-- A tier has the method and the schedule of the first rule. -/
theorem schedule_of_validateRule {baseline rule : RuleFields}
    (h : validateRule baseline rule = .ok ()) :
    rule.method = baseline.method ∧
      (rule.method = .TIME →
        rule.frequency = baseline.frequency ∧ rule.accruesAt = baseline.accruesAt) ∧
      (rule.method ≠ .TIME → rule.frequency = none ∧ rule.accruesAt = none) := by
  simp only [validateRule] at h
  split at h
  · cases h
  split at h
  · cases h
  next hmethod =>
  refine ⟨not_not.mp hmethod, fun htime => ?_, fun htime => ?_⟩
  · rw [if_pos htime] at h
    split at h
    · cases h
    split at h
    · cases h
    next hshared => exact ⟨not_not.mp fun hne => hshared (Or.inl hne),
        not_not.mp fun hne => hshared (Or.inr hne)⟩
  · rw [if_neg htime] at h
    split at h
    · cases h
    split at h
    · cases h
    next hcalendar => exact ⟨not_not.mp fun hne => hcalendar (Or.inl hne),
        not_not.mp fun hne => hcalendar (Or.inr hne)⟩

/-- The tiers of an accepted policy begin at different tenures and share one
schedule and accrual point. -/
theorem tiers_of_validatePolicy {kind : PolicyKind} {rules : List RuleFields}
    (h : validatePolicy kind rules = .ok ()) :
    (rules.map (·.minTenureMonths)).Nodup ∧
      ∀ r ∈ rules, ∀ r' ∈ rules, r.frequency = r'.frequency ∧ r.accruesAt = r'.accruesAt := by
  match kind, rules with
  | .UNLIMITED, [] => exact ⟨List.nodup_nil, fun _ hr => absurd hr List.not_mem_nil⟩
  | .UNLIMITED, _ :: _ => cases h
  | .ACCRUAL, [] => cases h
  | .ACCRUAL, baseline :: rest =>
    simp only [validatePolicy] at h
    split at h
    · cases h
    next htiers =>
    -- every tier is like the first
    have hfirst := schedule_of_validateRule (validateRule_of_forM h (List.mem_cons_self ..))
    have hlike : ∀ r ∈ baseline :: rest,
        r.frequency = baseline.frequency ∧ r.accruesAt = baseline.accruesAt := by
      intro r hr
      obtain ⟨hmethod, hshared, hplain⟩ := schedule_of_validateRule (validateRule_of_forM h hr)
      by_cases htime : r.method = .TIME
      · exact hshared htime
      · obtain ⟨hfrequency, hpoint⟩ := hplain htime
        obtain ⟨hfrequency', hpoint'⟩ := hfirst.2.2 (hmethod ▸ htime)
        exact ⟨hfrequency.trans hfrequency'.symm, hpoint.trans hpoint'.symm⟩
    refine ⟨not_not.mp fun hdup => htiers (Or.inl hdup), fun r hr r' hr' => ?_⟩
    obtain ⟨hfrequency, hpoint⟩ := hlike r hr
    obtain ⟨hfrequency', hpoint'⟩ := hlike r' hr'
    exact ⟨hfrequency.trans hfrequency'.symm, hpoint.trans hpoint'.symm⟩

/-- A rule by time has a schedule and an accrual point. -/
theorem calendar_of_validateRule {baseline rule : RuleFields}
    (h : validateRule baseline rule = .ok ()) (htime : rule.method = .TIME) :
    ∃ f a, rule.frequency = some f ∧ rule.accruesAt = some a := by
  simp only [validateRule] at h
  split at h
  · cases h
  split at h
  · cases h
  split at h
  · cases h
  next hnone =>
  obtain ⟨f, hf⟩ := Option.ne_none_iff_exists'.mp fun hf => hnone (Or.inl hf)
  obtain ⟨a, ha⟩ := Option.ne_none_iff_exists'.mp fun ha => hnone (Or.inr ha)
  exact ⟨f, a, hf, ha⟩

/-- A tier of an accepted policy accrues on a calendar, or for work and on none. -/
theorem calendar_of_validatePolicy {rules : List RuleFields}
    (h : validatePolicy .ACCRUAL rules = .ok ()) {rule : RuleFields} (hr : rule ∈ rules) :
    (rule.method = .TIME → ∃ f a, rule.frequency = some f ∧ rule.accruesAt = some a) ∧
      (rule.method = .HOURS_WORKED → rule.frequency = none ∧ rule.accruesAt = none) := by
  cases rules with
  | nil => cases hr
  | cons baseline rest =>
    simp only [validatePolicy] at h
    split at h
    · cases h
    have hrule := validateRule_of_forM h hr
    refine ⟨calendar_of_validateRule hrule, fun hhours => ?_⟩
    exact (schedule_of_validateRule hrule).2.2 (by rw [hhours]; decide)

/-- A rule by work says for how much. -/
theorem per_of_validateRule {baseline rule : RuleFields} (h : validateRule baseline rule = .ok ())
    (hmethod : rule.method = .HOURS_WORKED) :
    ∃ per, rule.perMinutesWorked = some per ∧ per ≠ 0 := by
  simp only [validateRule] at h
  split at h
  · cases h
  split at h
  · cases h
  rw [if_neg (by rw [hmethod]; decide)] at h
  split at h
  · cases h
  next hper =>
  cases hp : rule.perMinutesWorked with
  | none => exact absurd (Or.inl hp) hper
  | some per =>
    refine ⟨per, rfl, ?_⟩
    rintro rfl
    exact hper (Or.inr hp)

/-- The tiers of an accepted accrual policy have one method, begin at no tenure,
and name the work they pay for if they pay for work. -/
theorem method_of_validatePolicy {rules : List RuleFields}
    (h : validatePolicy .ACCRUAL rules = .ok ()) :
    (∃ method, ∀ r ∈ rules, r.method = method) ∧ 0 ∈ rules.map (·.minTenureMonths) ∧
      ∀ r ∈ rules, r.method = .HOURS_WORKED → ∃ per, r.perMinutesWorked = some per ∧ per ≠ 0 := by
  cases rules with
  | nil => cases h
  | cons baseline rest =>
    simp only [validatePolicy] at h
    split at h
    · cases h
    next htiers =>
    refine ⟨⟨baseline.method, fun r hr => ?_⟩, not_not.mp fun hzero => htiers (Or.inr hzero),
      fun r hr => per_of_validateRule (validateRule_of_forM h hr)⟩
    exact (schedule_of_validateRule (validateRule_of_forM h hr)).1

end TimeOff
