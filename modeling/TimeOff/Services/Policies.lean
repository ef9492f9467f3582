import TimeOff.Database
import TimeOff.Lib.Decimal

/-!
# Policy service

Policy writes append immutable versions. Catalog operations have no statements
to interleave here: each is a function from the catalog to the new catalog or an
error, and an error leaves nothing behind.

A write passes the range checks of its payload, the three validations of the
service, the rounding of `Numeric(12, 4)` and the constraints of the tables, in
this order. `addVersion_ok` says what is stored in the end, `create_eq` and
`update_eq` that nothing else of the catalog changes, `create_cases` and
`update_cases` how versions are numbered and dated.

Two invariants of versions come from the validations. `Valid` has rates, caps
and carryover in range, so that credits and carried minutes are not negative;
`Tiered` has tiers that begin at different tenures and share a schedule, so that
a selection among them has one result. What every other operation does to the
versions is `Catalog.Grows`: nothing, or new ones behind the old.
-/

namespace TimeOff

open Gregorian

/-- Constraints of the database on one statement's result. -/
def constrained {ρ : Type} {C : List ρ → Prop} [DecidablePred C] (rows : List ρ) :
    Except Error (Relation C) :=
  match Relation.set? rows with
  | some relation => .ok relation
  | none => .error .integrity

/-- A statement that passes leaves just those rows. -/
theorem rows_of_constrained {ρ : Type} {C : List ρ → Prop} [DecidablePred C] {rows : List ρ}
    {t : Relation C} (h : constrained rows = .ok t) : t.rows = rows := by
  unfold constrained at h
  split at h
  · next hs =>
    cases h
    exact Relation.rows_of_set? hs
  · cases h

/-- The fields a policy payload must have in range before a service sees it. -/
def payloadInRange (fields : VersionFields) (rules : List AccrualRule) : Prop :=
  (∀ rule ∈ rules, 0 < rule.amount ∧ (∀ per ∈ rule.perMinutesWorked, 0 < per) ∧
    0 ≤ rule.minTenureMonths) ∧
  fields.negativeFloorMinutes ≤ 0 ∧ (∀ cap ∈ fields.maxBalanceMinutes, 0 < cap) ∧
  ∀ cap ∈ fields.carryoverCapMinutes, 0 ≤ cap

instance (fields : VersionFields) (rules : List AccrualRule) :
    Decidable (payloadInRange fields rules) :=
  inferInstanceAs (Decidable (_ ∧ _ ∧ _ ∧ _))

namespace PolicyService

/-- `_validate` -/
def validate (kind : PolicyKind) (rules : List AccrualRule) : Except Error Unit :=
  match validatePolicy kind (rules.map (·.toRuleFields)) with
  | .ok _ => .ok ()
  | .error (.policyRule message) => .error (.policy message)
  | .error e => .error e

/-- `_validate_balance_settings` -/
def validateBalanceSettings (allowNegative : Bool) (floor : Int) : Except Error Unit :=
  if allowNegative ∧ 0 ≤ floor then
    .error (.policy "A negative-balance policy needs a floor below zero.")
  else .ok ()

/-- `_validate_advanced_settings` -/
def validateAdvancedSettings (maxBalanceMinutes carryoverCapMinutes : Option Int)
    (expiresAtPeriodEnd : Bool) : Except Error Unit :=
  if ∃ cap ∈ maxBalanceMinutes, cap ≤ 0 then
    .error (.policy "The maximum balance must be greater than zero.")
  else if ∃ cap ∈ carryoverCapMinutes, cap < 0 then
    .error (.policy "The carryover cap cannot be negative.")
  else if expiresAtPeriodEnd ∧ carryoverCapMinutes.isSome then
    .error (.policy "Choose either full expiration or a carryover cap, not both.")
  else .ok ()

/-- The three validations of a version, and the range of its payload. -/
def validateVersion (fields : VersionFields) (rules : List AccrualRule) : Except Error Unit := do
  if payloadInRange fields rules then pure () else .error (.http 422 "Unprocessable Entity")
  validate fields.kind rules
  validateBalanceSettings fields.allowNegative fields.negativeFloorMinutes
  validateAdvancedSettings fields.maxBalanceMinutes fields.carryoverCapMinutes
    fields.expiresAtPeriodEnd

/-- A rule as `Numeric(12, 4)` stores it: four decimals, below 10⁸. -/
def storedRule (rule : AccrualRule) : Except Error AccrualRule :=
  let amount := Decimal.quantize 4 rule.amount
  if 10 ^ 8 ≤ |amount| then .error .integrity else .ok { rule with amount := amount }

/-- `_add_version`; the generated keys are `id` and those of `rules`. -/
def addVersion (c : Catalog) (id policyId : Uuid) (versionNo : Int) (fields : VersionFields)
    (rules : List AccrualRule) : Except Error Catalog := do
  let rules ← rules.mapM storedRule
  let version : PolicyVersion := { fields with id, policyId, versionNo, rules }
  let versions ← constrained (c.versions.rows ++ [version])
  return { c with versions := versions }

/-- `create` -/
def create (c : Catalog) (companyId : String) (policyId versionId : Uuid) (name : String)
    (categoryId : Uuid) (fields : VersionFields) (rules : List AccrualRule) :
    Except Error Catalog := do
  validateVersion fields rules
  match c.categories.rows.find? fun category => category.id = categoryId with
  | none => .error (.policy "Unknown time-off category.")
  | some category =>
    if category.companyId ≠ companyId then .error (.policy "Unknown time-off category.")
    else do
      let policies ← constrained (c.policies.rows ++
        [{ id := policyId, companyId, categoryId, name }])
      addVersion { c with policies := policies } versionId policyId 1 fields rules

/-- `update` -/
def update (c : Catalog) (policy : Policy) (versionId : Uuid) (name : Option String)
    (fields : VersionFields) (rules : List AccrualRule) : Except Error Catalog := do
  validateVersion fields rules
  match c.latestVersion policy.id with
  | none => .error (.policy "Policy has no version.")
  | some current =>
    if fields.effectiveFrom ≤ current.effectiveFrom then
      .error (.policy ("A new version must start after " ++ isoformat current.effectiveFrom ++ "."))
    else do
      let policies ← constrained (c.policies.rows.map fun row =>
        match name with
        | none => row
        | some name => if row.id = policy.id ∧ name ≠ "" then { row with name } else row)
      addVersion { c with policies := policies } versionId policy.id (current.versionNo + 1) fields
        rules

end PolicyService

/-! ## What policy writes do to the versions

Two notions for later: `Grows`, for facts that last as long as no version is
lost, and `Appends`, for facts about each version as it was when it was written.
-/

/-- Rates the database can hold: never negative. -/
def AccrualRule.Valid (rule : AccrualRule) : Prop :=
  0 ≤ rule.amount ∧ ∀ per ∈ rule.perMinutesWorked, 0 < per

/-- A version whose rates, cap and carryover are in range. -/
structure PolicyVersion.Valid (v : PolicyVersion) : Prop where
  rules : ∀ rule ∈ v.rules, rule.Valid
  max_pos : ∀ cap ∈ v.maxBalanceMinutes, 0 < cap
  carryover_nonneg : ∀ cap ∈ v.carryoverCapMinutes, 0 ≤ cap

/-- `d` has the versions of `c` and possibly newer ones, all in range. -/
def Catalog.Grows (c d : Catalog) : Prop :=
  ∃ new : List PolicyVersion, d.versions.rows = c.versions.rows ++ new ∧ ∀ v ∈ new, v.Valid

namespace Catalog.Grows

variable {c d e : Catalog}

theorem refl (c : Catalog) : c.Grows c := ⟨[], (List.append_nil _).symm, fun _ h => by cases h⟩

theorem of_eq (h : d.versions = c.versions) : c.Grows d :=
  ⟨[], by rw [h, List.append_nil], fun _ h => by cases h⟩

theorem trans (h₁ : c.Grows d) (h₂ : d.Grows e) : c.Grows e := by
  obtain ⟨n₁, hr₁, hv₁⟩ := h₁
  obtain ⟨n₂, hr₂, hv₂⟩ := h₂
  refine ⟨n₁ ++ n₂, by rw [hr₂, hr₁, List.append_assoc], fun v hv => ?_⟩
  exact (List.mem_append.mp hv).elim (hv₁ v) (hv₂ v)

/-- No version is dropped. -/
theorem subset (h : c.Grows d) : c.versions.rows ⊆ d.versions.rows := by
  obtain ⟨n, hr, -⟩ := h
  rw [hr]
  exact List.subset_append_left _ _

/-- A version keeps its id for ever. -/
theorem version (h : c.Grows d) {id : Uuid} {v : PolicyVersion} (hv : c.version id = some v) :
    d.version id = some v := by
  obtain ⟨n, hr, -⟩ := h
  unfold Catalog.version at hv ⊢
  rw [hr, List.find?_append, hv]
  rfl

/-- New versions are in range. -/
theorem valid (h : c.Grows d) (hc : ∀ v ∈ c.versions.rows, v.Valid) :
    ∀ v ∈ d.versions.rows, v.Valid := by
  obtain ⟨n, hr, hn⟩ := h
  rw [hr]
  exact fun v hv => (List.mem_append.mp hv).elim (hc v) (hn v)

end Catalog.Grows

/-- `d` has the versions of `c`, or one more that a policy write has validated
and stored. -/
def Catalog.Appends (c d : Catalog) : Prop :=
  d.versions = c.versions ∨ ∃ v rules,
    PolicyService.validateVersion v.toVersionFields rules = .ok () ∧
      rules.mapM PolicyService.storedRule = .ok v.rules ∧
      d.versions.rows = c.versions.rows ++ [v]

/-- The tiers of a version begin at different tenures and share one schedule. -/
structure PolicyVersion.Tiered (v : PolicyVersion) : Prop where
  once : (v.rules.map (·.minTenureMonths)).Nodup
  uniform : ∀ r ∈ v.rules, ∀ r' ∈ v.rules, r.frequency = r'.frequency ∧ r.accruesAt = r'.accruesAt

namespace PolicyService

/-- Only the amount of a rule is stored in another form. -/
theorem storedRule_eq {rule stored : AccrualRule} (h : storedRule rule = .ok stored) :
    stored = { rule with amount := Decimal.quantize 4 rule.amount } := by
  unfold storedRule at h
  dsimp only at h
  split at h
  · cases h
  · cases h
    rfl

/-- Rules are stored with four decimals. -/
theorem stored_eq_map {rules stored : List AccrualRule} (h : rules.mapM storedRule = .ok stored) :
    stored = rules.map fun rule => { rule with amount := Decimal.quantize 4 rule.amount } := by
  have hall := Except.mapM_eq_ok.mp h
  clear h
  induction hall with
  | nil => rfl
  | cons hrule _ ih => rw [List.map_cons, ← ih, storedRule_eq hrule]

/-- What passed validation passed each of its parts. -/
theorem inRange_of_validateVersion {fields : VersionFields} {rules : List AccrualRule}
    (h : validateVersion fields rules = .ok ()) : payloadInRange fields rules := by
  unfold validateVersion at h
  by_cases hr : payloadInRange fields rules
  · exact hr
  · rw [if_neg hr] at h
    cases h

theorem validatePolicy_of_validateVersion {fields : VersionFields} {rules : List AccrualRule}
    (h : validateVersion fields rules = .ok ()) :
    validatePolicy fields.kind (rules.map (·.toRuleFields)) = .ok () := by
  unfold validateVersion at h
  rw [if_pos (inRange_of_validateVersion h)] at h
  obtain ⟨u, hvalidate, -⟩ := Except.bind_eq_ok.mp h
  unfold validate at hvalidate
  split at hvalidate
  · next hpolicy => exact hpolicy
  · cases hvalidate
  · cases hvalidate

theorem balance_of_validateVersion {fields : VersionFields} {rules : List AccrualRule}
    (h : validateVersion fields rules = .ok ()) :
    validateBalanceSettings fields.allowNegative fields.negativeFloorMinutes = .ok () := by
  unfold validateVersion at h
  rw [if_pos (inRange_of_validateVersion h)] at h
  obtain ⟨_, -, h⟩ := Except.bind_eq_ok.mp h
  obtain ⟨_, hbalance, -⟩ := Except.bind_eq_ok.mp h
  exact hbalance

variable {c d : Catalog} {fields : VersionFields} {rules : List AccrualRule}

/-- The version that a policy write stores: nothing else changes. -/
theorem addVersion_ok {id policyId : Uuid} {versionNo : Int}
    (h : addVersion c id policyId versionNo fields rules = .ok d) :
    ∃ (v : PolicyVersion) (versions : Relation _), d = { c with versions := versions } ∧
      versions.rows = c.versions.rows ++ [v] ∧ v.policyId = policyId ∧ v.versionNo = versionNo ∧
      v.toVersionFields = fields ∧ rules.mapM storedRule = .ok v.rules := by
  obtain ⟨stored, hstored, h⟩ := Except.bind_eq_ok.mp h
  obtain ⟨versions, hversions, h⟩ := Except.bind_eq_ok.mp h
  cases h
  exact ⟨_, versions, rfl, rows_of_constrained hversions, rfl, rfl, rfl, hstored⟩

/-- A version is appended with its number and its rules as they are stored. -/
theorem addVersion_cases {id policyId : Uuid} {versionNo : Int}
    (h : addVersion c id policyId versionNo fields rules = .ok d) :
    ∃ v : PolicyVersion, v.policyId = policyId ∧ v.versionNo = versionNo ∧
      v.toVersionFields = fields ∧ rules.mapM storedRule = .ok v.rules ∧
      d.versions.rows = c.versions.rows ++ [v] := by
  obtain ⟨v, versions, rfl, hrows, hpolicy, hno, hfields, hstored⟩ := addVersion_ok h
  exact ⟨v, hpolicy, hno, hfields, hstored, hrows⟩

section create

variable {companyId name : String} {policyId versionId categoryId : Uuid}

/-- What a new policy goes through. -/
theorem create_ok
    (h : create c companyId policyId versionId name categoryId fields rules = .ok d) :
    validateVersion fields rules = .ok () ∧ ∃ policies : Relation _,
      policies.rows = c.policies.rows ++ [{ id := policyId, companyId, categoryId, name }] ∧
        addVersion { c with policies := policies } versionId policyId 1 fields rules = .ok d := by
  obtain ⟨_, hvalid, h⟩ := Except.bind_eq_ok.mp h
  refine ⟨hvalid, ?_⟩
  split at h
  · cases h
  split at h
  · cases h
  obtain ⟨policies, hpolicies, h⟩ := Except.bind_eq_ok.mp h
  exact ⟨policies, rows_of_constrained hpolicies, h⟩

/-- A new policy leaves the rest of the catalog alone. -/
theorem create_eq
    (h : create c companyId policyId versionId name categoryId fields rules = .ok d) :
    ∃ policies versions, d = { c with policies := policies, versions := versions } ∧
      c.policies.rows ⊆ policies.rows := by
  obtain ⟨-, policies, hpolicies, h⟩ := create_ok h
  obtain ⟨_, versions, rfl, -⟩ := addVersion_ok h
  refine ⟨policies, versions, rfl, ?_⟩
  rw [hpolicies]
  exact List.subset_append_left _ _

/-- A new policy begins with version 1, under an id that no policy has. -/
theorem create_cases
    (h : create c companyId policyId versionId name categoryId fields rules = .ok d) :
    (∃ v : PolicyVersion, v.policyId = policyId ∧ v.versionNo = 1 ∧ v.toVersionFields = fields ∧
      rules.mapM storedRule = .ok v.rules ∧ d.versions.rows = c.versions.rows ++ [v]) ∧
      ∀ p ∈ c.policies.rows, p.id ≠ policyId := by
  obtain ⟨-, policies, hpolicies, h⟩ := create_ok h
  refine ⟨addVersion_cases (c := { c with policies := policies }) h, fun p hp heq => ?_⟩
  have hnodup := policies.holds.1
  rw [hpolicies, List.map_append, List.map_singleton] at hnodup
  exact (List.nodup_append.mp hnodup).2.2 p.id (List.mem_map_of_mem hp) policyId
    (List.mem_singleton.mpr rfl) heq

/-- A policy write appends one version. -/
theorem create_appends
    (h : create c companyId policyId versionId name categoryId fields rules = .ok d) :
    c.Appends d := by
  obtain ⟨⟨v, -, -, rfl, hstored, hrows⟩, -⟩ := create_cases h
  exact Or.inr ⟨v, rules, (create_ok h).1, hstored, hrows⟩

end create

section update

variable {policy : Policy} {versionId : Uuid} {name : Option String}

/-- What an update goes through: it begins after the latest version, and at most
renames policies. -/
theorem update_ok (h : update c policy versionId name fields rules = .ok d) :
    validateVersion fields rules = .ok () ∧ ∃ current,
      c.latestVersion policy.id = some current ∧ current.effectiveFrom < fields.effectiveFrom ∧
        ∃ policies : Relation _,
          (∀ p ∈ c.policies.rows, ∃ q ∈ policies.rows, q.id = p.id ∧ q.categoryId = p.categoryId) ∧
            addVersion { c with policies := policies } versionId policy.id (current.versionNo + 1)
              fields rules = .ok d := by
  obtain ⟨_, hvalid, h⟩ := Except.bind_eq_ok.mp h
  refine ⟨hvalid, ?_⟩
  split at h
  · cases h
  next current hcurrent =>
  split at h
  · cases h
  next hlater =>
  obtain ⟨policies, hpolicies, h⟩ := Except.bind_eq_ok.mp h
  refine ⟨current, hcurrent, not_le.mp hlater, policies, fun p hp => ?_, h⟩
  rw [rows_of_constrained hpolicies]
  refine ⟨_, List.mem_map_of_mem hp, ?_⟩
  cases name with
  | none => exact ⟨rfl, rfl⟩
  | some name =>
    dsimp only
    split <;> exact ⟨rfl, rfl⟩

/-- An update leaves the rest of the catalog alone, too. -/
theorem update_eq (h : update c policy versionId name fields rules = .ok d) :
    ∃ policies versions, d = { c with policies := policies, versions := versions } ∧
      ∀ p ∈ c.policies.rows, ∃ q ∈ policies.rows, q.id = p.id ∧ q.categoryId = p.categoryId := by
  obtain ⟨-, _, -, -, policies, hpolicies, h⟩ := update_ok h
  obtain ⟨_, versions, rfl, -⟩ := addVersion_ok h
  exact ⟨policies, versions, rfl, hpolicies⟩

/-- An update adds the next version, which begins after the latest. -/
theorem update_cases (h : update c policy versionId name fields rules = .ok d) :
    ∃ current, c.latestVersion policy.id = some current ∧
      current.effectiveFrom < fields.effectiveFrom ∧
      ∃ v : PolicyVersion, v.policyId = policy.id ∧ v.versionNo = current.versionNo + 1 ∧
        v.toVersionFields = fields ∧ rules.mapM storedRule = .ok v.rules ∧
        d.versions.rows = c.versions.rows ++ [v] := by
  obtain ⟨-, current, hcurrent, hlater, policies, -, h⟩ := update_ok h
  exact ⟨current, hcurrent, hlater, addVersion_cases (c := { c with policies := policies }) h⟩

theorem update_appends (h : update c policy versionId name fields rules = .ok d) :
    c.Appends d := by
  obtain ⟨_, -, -, v, -, -, rfl, hstored, hrows⟩ := update_cases h
  exact Or.inr ⟨v, rules, (update_ok h).1, hstored, hrows⟩

end update

end PolicyService

namespace Catalog.Appends

variable {c d : Catalog}

/-- What is appended is in range. -/
theorem grows (h : c.Appends d) : c.Grows d := by
  rcases h with heq | ⟨v, rules, hvalid, hstored, hrows⟩
  · exact .of_eq heq
  · obtain ⟨hrules, -, hmax, hcarryover⟩ := PolicyService.inRange_of_validateVersion hvalid
    refine ⟨[v], hrows, fun w hw => ?_⟩
    rw [List.mem_singleton.mp hw]
    refine ⟨?_, hmax, hcarryover⟩
    rw [PolicyService.stored_eq_map hstored]
    refine List.forall_mem_map.mpr fun r hr => ?_
    exact ⟨Decimal.quantize_nonneg (le_of_lt (hrules r hr).1), (hrules r hr).2.1⟩

theorem tiered (h : c.Appends d) (hc : ∀ v ∈ c.versions.rows, v.Tiered) :
    ∀ v ∈ d.versions.rows, v.Tiered := by
  rcases h with heq | ⟨v, rules, hvalid, hstored, hrows⟩
  · rw [heq]
    exact hc
  · rw [hrows]
    intro w hw
    rcases List.mem_append.mp hw with hw | hw
    · exact hc w hw
    · rw [List.mem_singleton.mp hw]
      obtain ⟨hnodup, huniform⟩ :=
        tiers_of_validatePolicy (PolicyService.validatePolicy_of_validateVersion hvalid)
      rw [List.map_map] at hnodup
      constructor
      · rw [PolicyService.stored_eq_map hstored, List.map_map]
        exact hnodup
      · rw [PolicyService.stored_eq_map hstored]
        refine List.forall_mem_map.mpr fun r hr => List.forall_mem_map.mpr fun r' hr' => ?_
        exact huniform r.toRuleFields (List.mem_map_of_mem hr) r'.toRuleFields
          (List.mem_map_of_mem hr')

end Catalog.Appends

end TimeOff
