import TimeOff.Lib.Sql
import TimeOff.System

/-!
# Policies in the migrated schema

The six migrations build the tables that `create` writes a policy to. They are
given here as far as these three tables go, without their keys and times of
creation. A row of a rule keeps the rule but for the digits of its amount
(`keptRule`), so that a payload comes back as it was sent exactly if the columns
and constraints have room for it (`roundTrips_iff`).

The tables are computed from the migrations (`schema`), and `ruleColumns`,
`ruleChecks` and their siblings evaluate them once, so that the proofs go by
columns. Each table then has three lemmas:

- what its columns keep of the written row (`keeps_ruleRow`), provided that the
  numbers fit (`InColumns`);
- what its constraints allow (`admits_ruleRow`), where the CHECK of migration
  0001 shows: it lists `MONTHLY` and `YEARLY`, and no later migration has
  changed it;
- both together, as an equivalence about the insert (`insert_ruleRow`).

Reading back is a left inverse of writing (`readVersion_versionRow`,
`readRule_ruleRow`). So a payload round-trips when it is stored and its amounts
have no more than the four decimals that the column keeps, and `FitsSchema` says
this of the payload itself.
-/

namespace TimeOff

open Gregorian Sql

namespace Migrations

/-- `0001_policies_and_assignments` -/
def m0001 : List Change :=
  [.createTable "policies"
    [{ name := "id", type := .string 64, nullable := false },
     { name := "company_id", type := .string 64, nullable := false },
     { name := "category_id", type := .string 64, nullable := false },
     { name := "name", type := .string 128, nullable := false },
     { name := "created_by", type := .string 64, nullable := false }] [],
   .createTable "policy_versions"
    [{ name := "id", type := .string 64, nullable := false },
     { name := "policy_id", type := .string 64, nullable := false },
     { name := "version_no", type := .integer, nullable := false },
     { name := "effective_from", type := .date, nullable := false },
     { name := "kind", type := .string 32, nullable := false },
     { name := "created_by", type := .string 64, nullable := false },
     { name := "change_reason", type := .text, nullable := false }]
    [("policy_kind", .isIn "kind" ["UNLIMITED", "ACCRUAL"])],
   .createTable "accrual_rules"
    [{ name := "id", type := .string 64, nullable := false },
     { name := "policy_version_id", type := .string 64, nullable := false },
     { name := "method", type := .string 32, nullable := false },
     { name := "amount", type := .numeric 12 4, nullable := false },
     { name := "unit", type := .string 32, nullable := false },
     { name := "frequency", type := .string 32 },
     { name := "accrues_at", type := .string 32 }]
    [("accrual_method", .isIn "method" ["TIME", "HOURS_WORKED"]),
     ("rate_unit", .isIn "unit" ["DAY", "HOUR", "MINUTE"]),
     ("accrual_schedule", .or (.isNull "frequency") (.isIn "frequency" ["MONTHLY", "YEARLY"])),
     ("accrues_at",
       .or (.isNull "accrues_at") (.isIn "accrues_at" ["START_OF_PERIOD", "END_OF_PERIOD"]))]]

/-- `0002_accrual_ledger` -/
def m0002 : List Change :=
  [.addColumn "policy_versions"
    { name := "new_hire_proration", type := .string 32, nullable := false,
      default := .text "PRORATE" },
   .createCheck "new_hire_proration" "policy_versions"
    (.isIn "new_hire_proration" ["PRORATE", "FULL", "NONE"]),
   .addColumn "accrual_rules" { name := "per_minutes_worked", type := .integer }]

/-- `0003_time_off_requests` -/
def m0003 : List Change :=
  [.addColumn "policy_versions"
    { name := "allow_negative", type := .boolean, nullable := false, default := .boolean false },
   .addColumn "policy_versions"
    { name := "negative_floor_minutes", type := .integer, nullable := false,
      default := .integer 0 }]

/-- `0004_advanced_time_off_rules` -/
def m0004 : List Change :=
  [.addColumn "policy_versions" { name := "max_balance_minutes", type := .integer },
   .addColumn "policy_versions" { name := "carryover_cap_minutes", type := .integer },
   .addColumn "policy_versions"
    { name := "expires_at_period_end", type := .boolean, nullable := false,
      default := .boolean false },
   .addColumn "policy_versions"
    { name := "tenure_transition", type := .string 32, nullable := false,
      default := .text "NEXT_PERIOD" },
   .createCheck "tenure_transition" "policy_versions" (.isIn "tenure_transition" ["NEXT_PERIOD"]),
   .addColumn "accrual_rules"
    { name := "min_tenure_months", type := .integer, nullable := false, default := .integer 0 }]

/-- `0005_reviewer_experience` leaves policies alone. -/
def m0005 : List Change := []

/-- `0006_employee_groups` -/
def m0006 : List Change :=
  [.addColumn "policies"
    { name := "all_employees", type := .boolean, nullable := false, default := .boolean false }]

end Migrations

/-- What the migrations build, in their order. -/
def schema : Schema :=
  Sql.upgrade [Migrations.m0001, Migrations.m0002, Migrations.m0003, Migrations.m0004,
    Migrations.m0005, Migrations.m0006]

/-- A table of the schema by its name. -/
def table (name : String) : Table := (schema.lookup name).getD { columns := [] }

/-! ## What a write inserts and a read finds

The payload as a row of each of the three tables, with the keys and the defaults
that the service fills in, and back. -/

/-- A policy payload, its rules with the keys they get. -/
structure PolicyCreateIn extends VersionFields where
  name : String
  categoryId : Uuid
  changeReason : String := "Policy created"
  rules : List AccrualRule := []
deriving DecidableEq, Repr

/-- The payload passes its field constraints and the validations of the service. -/
structure PolicyCreateIn.Accepted (p : PolicyCreateIn) : Prop where
  name : 1 ≤ p.name.length ∧ p.name.length ≤ 128
  version : PolicyService.validateVersion p.toVersionFields p.rules = .ok ()

/-- Who creates a policy, and the keys the database generates for it. -/
structure Creation where
  companyId : String
  actorId : String
  policyId : Uuid
  versionId : Uuid
  company_fits : companyId.length ≤ 64
  actor_fits : actorId.length ≤ 64

/-- What is written to each table. -/
def policyRow (w : Creation) (p : PolicyCreateIn) : Row :=
  [("id", .text w.policyId.text),
   ("company_id", .text w.companyId),
   ("category_id", .text p.categoryId.text),
   ("name", .text p.name),
   ("created_by", .text w.actorId),
   ("all_employees", .boolean false)]

def versionRow (w : Creation) (p : PolicyCreateIn) : Row :=
  [("id", .text w.versionId.text),
   ("policy_id", .text w.policyId.text),
   ("version_no", .integer 1),
   ("effective_from", .date p.effectiveFrom),
   ("kind", .text p.kind.value),
   ("created_by", .text w.actorId),
   ("change_reason", .text p.changeReason),
   ("new_hire_proration", .text p.newHireProration.value),
   ("allow_negative", .boolean p.allowNegative),
   ("negative_floor_minutes", .integer p.negativeFloorMinutes),
   ("max_balance_minutes", .ofOption .integer p.maxBalanceMinutes),
   ("carryover_cap_minutes", .ofOption .integer p.carryoverCapMinutes),
   ("expires_at_period_end", .boolean p.expiresAtPeriodEnd),
   -- the only transition there is
   ("tenure_transition", .text "NEXT_PERIOD")]

def ruleRow (w : Creation) (rule : AccrualRule) : Row :=
  [("id", .text rule.id.text),
   ("policy_version_id", .text w.versionId.text),
   ("method", .text rule.method.value),
   ("amount", .decimal rule.amount),
   ("unit", .text rule.unit.value),
   ("frequency", .ofOption (fun f => .text f.value) rule.frequency),
   ("accrues_at", .ofOption (fun a => .text a.value) rule.accruesAt),
   ("per_minutes_worked", .ofOption .integer rule.perMinutesWorked),
   ("min_tenure_months", .integer rule.minTenureMonths)]

/-- What the three tables keep of a created policy. -/
structure StoredPolicy where
  policy : Row
  version : Row
  rules : List Row
deriving DecidableEq, Repr

/-- The inserts of `create` and `_add_version`. -/
def store (w : Creation) (p : PolicyCreateIn) : Option StoredPolicy := do
  let policy ← (table "policies").insert (policyRow w p)
  let version ← (table "policy_versions").insert (versionRow w p)
  let rules ← (table "accrual_rules").insertMany (p.rules.map (ruleRow w))
  return { policy, version, rules }

/-- What is read from it. -/
def readVersion (row : Row) : Option VersionFields := do
  return {
    effectiveFrom := ← (row.get "effective_from").date?
    kind := ← (row.get "kind").member? [.UNLIMITED, .ACCRUAL] PolicyKind.value
    newHireProration :=
      ← (row.get "new_hire_proration").member? [.PRORATE, .FULL, .NONE] NewHireProration.value
    allowNegative := ← (row.get "allow_negative").boolean?
    negativeFloorMinutes := ← (row.get "negative_floor_minutes").integer?
    maxBalanceMinutes := ← (row.get "max_balance_minutes").nullable? Value.integer?
    carryoverCapMinutes := ← (row.get "carryover_cap_minutes").nullable? Value.integer?
    expiresAtPeriodEnd := ← (row.get "expires_at_period_end").boolean? }

def readRule (row : Row) : Option RuleFields := do
  return {
    method := ← (row.get "method").member? [.TIME, .HOURS_WORKED] AccrualMethod.value
    amount := ← (row.get "amount").decimal?
    unit := ← (row.get "unit").member? [.DAY, .HOUR, .MINUTE] RateUnit.value
    frequency := ← (row.get "frequency").nullable? (Value.member?
      [.DAILY, .WEEKLY, .SEMIMONTHLY, .BIWEEKLY, .MONTHLY, .YEARLY] Schedule.value)
    accruesAt := ← (row.get "accrues_at").nullable? (Value.member?
      [.START_OF_PERIOD, .END_OF_PERIOD] AccruesAt.value)
    perMinutesWorked := ← (row.get "per_minutes_worked").nullable? Value.integer?
    minTenureMonths := ← (row.get "min_tenure_months").integer? }

/-! ## The rule table

What the columns of the migrated table keep of a rule, and which rules its CHECK
constraints admit. -/

/-- The columns of the rules, as the migrations leave them. -/
theorem ruleColumns :
    (table "accrual_rules").columns =
      [{ name := "id", type := .string 64, nullable := false },
       { name := "policy_version_id", type := .string 64, nullable := false },
       { name := "method", type := .string 32, nullable := false },
       { name := "amount", type := .numeric 12 4, nullable := false },
       { name := "unit", type := .string 32, nullable := false },
       { name := "frequency", type := .string 32 },
       { name := "accrues_at", type := .string 32 },
       { name := "per_minutes_worked", type := .integer },
       { name := "min_tenure_months", type := .integer, nullable := false,
         default := .integer 0 }] := by
  decide

/-- The schedules of migration 0001 are the only ones left after 0006. -/
theorem ruleChecks :
    (table "accrual_rules").checks =
      [("accrual_method", .isIn "method" ["TIME", "HOURS_WORKED"]),
       ("rate_unit", .isIn "unit" ["DAY", "HOUR", "MINUTE"]),
       ("accrual_schedule", .or (.isNull "frequency") (.isIn "frequency" ["MONTHLY", "YEARLY"])),
       ("accrues_at", .or (.isNull "accrues_at")
         (.isIn "accrues_at" ["START_OF_PERIOD", "END_OF_PERIOD"]))] := by
  decide

/-- The row that is kept of a rule: its amount has four decimals. -/
def keptRule (w : Creation) (rule : AccrualRule) : Row :=
  ruleRow w { rule with amount := Decimal.quantize 4 rule.amount }

/-- The numbers of the rule fit their columns. -/
structure RuleFields.InColumns (rule : RuleFields) : Prop where
  amount : |Decimal.quantize 4 rule.amount| < 10 ^ 8
  per : ∀ per ∈ rule.perMinutesWorked, InInteger per
  tenure : InInteger rule.minTenureMonths

/-- A generated key has the length of its column. -/
theorem store_uuid (key : Uuid) :
    (ColumnType.string 64).store (.text key.text) = some (.text key.text) := by
  refine store_text ?_
  rw [← String.length_toList, key.form.1]
  omega

/-- The columns of the rules keep a rule whose numbers fit. -/
theorem keeps_ruleRow {rule : AccrualRule} (w : Creation) (h : rule.toRuleFields.InColumns) :
    List.Forall₂ (fun c field => c.keep (ruleRow w rule) = some field)
      (table "accrual_rules").columns (keptRule w rule) := by
  have hmethod : rule.method.value.length ≤ 32 := by
    cases rule.method <;> decide
  have hunit : rule.unit.value.length ≤ 32 := by
    cases rule.unit <;> decide
  have hfrequency : ∀ f : Schedule, f.value.length ≤ 32 := by
    intro f
    cases f <;> decide
  have hpoint : ∀ a : AccruesAt, a.value.length ≤ 32 := by
    intro a
    cases a <;> decide
  rw [ruleColumns]
  refine .cons (keep_eq_some.mpr ⟨rfl, store_uuid rule.id⟩) ?_
  refine .cons (keep_eq_some.mpr ⟨rfl, store_uuid w.versionId⟩) ?_
  refine .cons (keep_eq_some.mpr ⟨rfl, store_text hmethod⟩) ?_
  refine .cons (keep_eq_some.mpr ⟨rfl, store_numeric h.amount⟩) ?_
  refine .cons (keep_eq_some.mpr ⟨rfl, store_text hunit⟩) ?_
  refine .cons (keep_eq_some.mpr ⟨rfl, Column.store_ofOption rfl (by simp)
    fun f _ => store_text (hfrequency f)⟩) ?_
  refine .cons (keep_eq_some.mpr ⟨rfl, Column.store_ofOption rfl (by simp)
    fun a _ => store_text (hpoint a)⟩) ?_
  refine .cons (keep_eq_some.mpr ⟨rfl, Column.store_ofOption rfl (by simp)
    fun per hper => store_integer (h.per per hper)⟩) ?_
  exact .cons (keep_eq_some.mpr ⟨rfl, store_integer h.tenure⟩) .nil

/-- The constraints allow the schedules of migration 0001. -/
theorem admits_ruleRow (w : Creation) (rule : AccrualRule) :
    (table "accrual_rules").Admits (ruleRow w rule) ↔
      ∀ f ∈ rule.frequency, f = .MONTHLY ∨ f = .YEARLY := by
  have hmethod : ["TIME", "HOURS_WORKED"].contains rule.method.value = true := by
    cases rule.method <;> decide
  have hunit : ["DAY", "HOUR", "MINUTE"].contains rule.unit.value = true := by
    cases rule.unit <;> decide
  have hpoint : (rule.accruesAt.all fun a =>
      ["START_OF_PERIOD", "END_OF_PERIOD"].contains a.value) = true := by
    rcases rule.accruesAt with _ | a
    · rfl
    · cases a <;> decide
  have hfrequency : (rule.frequency.all fun f => ["MONTHLY", "YEARLY"].contains f.value) = true ↔
      ∀ f ∈ rule.frequency, f = .MONTHLY ∨ f = .YEARLY := by
    rw [Option.all_eq_true]
    refine forall₂_congr fun f _ => ?_
    cases f <;> decide
  unfold Table.Admits
  rw [ruleChecks, ← hfrequency]
  simp only [List.forall_mem_cons, List.not_mem_nil]
  rw [eval_isIn (s := rule.method.value) rfl, eval_isIn (s := rule.unit.value) rfl,
    eval_optional Schedule.value (o := rule.frequency) rfl,
    eval_optional AccruesAt.value (o := rule.accruesAt) rfl, hmethod, hunit, hpoint]
  simp

/-- A stored rule fitted its columns. -/
theorem inColumns_of_insert {w : Creation} {rule : AccrualRule} {row : Row}
    (h : (table "accrual_rules").insert (ruleRow w rule) = some row) :
    rule.toRuleFields.InColumns := by
  have hcolumn {c : Column} (hc : c ∈ (table "accrual_rules").columns) := Table.store_of_insert h hc
  rw [ruleColumns] at hcolumn
  obtain ⟨_, hamount⟩ :=
    hcolumn (c := { name := "amount", type := .numeric 12 4, nullable := false }) (by decide)
  obtain ⟨_, hper⟩ := hcolumn (c := { name := "per_minutes_worked", type := .integer }) (by decide)
  obtain ⟨_, htenure⟩ :=
    hcolumn (c := { name := "min_tenure_months", type := .integer, nullable := false,
                    default := .integer 0 }) (by decide)
  exact ⟨numeric_of_store hamount, fun per hp => inInteger_of_store_ofOption rfl hper hp,
    inInteger_of_store htenure⟩

/-- A rule is stored exactly if it passes both. -/
theorem insert_ruleRow {w : Creation} {rule : AccrualRule} {row : Row} :
    (table "accrual_rules").insert (ruleRow w rule) = some row ↔
      (rule.toRuleFields.InColumns ∧ ∀ f ∈ rule.frequency, f = .MONTHLY ∨ f = .YEARLY) ∧
        row = keptRule w rule := by
  constructor
  · intro h
    have hcolumns := inColumns_of_insert h
    obtain ⟨-, hkeep, hadmits⟩ := Table.insert_eq_some.mp h
    obtain rfl := kept_unique hkeep (keeps_ruleRow w hcolumns)
    -- the constraints do not look at the amount
    have hfrequency := (admits_ruleRow w
      { rule with amount := Decimal.quantize 4 rule.amount }).mp hadmits
    exact ⟨⟨hcolumns, hfrequency⟩, rfl⟩
  · rintro ⟨⟨hcolumns, hfrequency⟩, rfl⟩
    refine Table.insert_eq_some.mpr
      ⟨?_, keeps_ruleRow w hcolumns, (admits_ruleRow w _).mpr hfrequency⟩
    rw [ruleColumns]
    rfl

/-! ## The version and policy tables

The same for the two other tables, which have no rows to refuse but those with
numbers or texts too large. -/

/-- The columns of the versions. -/
theorem versionColumns :
    (table "policy_versions").columns =
      [{ name := "id", type := .string 64, nullable := false },
       { name := "policy_id", type := .string 64, nullable := false },
       { name := "version_no", type := .integer, nullable := false },
       { name := "effective_from", type := .date, nullable := false },
       { name := "kind", type := .string 32, nullable := false },
       { name := "created_by", type := .string 64, nullable := false },
       { name := "change_reason", type := .text, nullable := false },
       { name := "new_hire_proration", type := .string 32, nullable := false,
         default := .text "PRORATE" },
       { name := "allow_negative", type := .boolean, nullable := false, default := .boolean false },
       { name := "negative_floor_minutes", type := .integer, nullable := false,
         default := .integer 0 },
       { name := "max_balance_minutes", type := .integer },
       { name := "carryover_cap_minutes", type := .integer },
       { name := "expires_at_period_end", type := .boolean, nullable := false,
         default := .boolean false },
       { name := "tenure_transition", type := .string 32, nullable := false,
         default := .text "NEXT_PERIOD" }] := by
  decide

/-- And their constraints, which every version passes. -/
theorem versionChecks :
    (table "policy_versions").checks =
      [("policy_kind", .isIn "kind" ["UNLIMITED", "ACCRUAL"]),
       ("new_hire_proration", .isIn "new_hire_proration" ["PRORATE", "FULL", "NONE"]),
       ("tenure_transition", .isIn "tenure_transition" ["NEXT_PERIOD"])] := by
  decide

/-- The numbers of the version fit their columns. -/
structure VersionFields.InColumns (fields : VersionFields) : Prop where
  floor : InInteger fields.negativeFloorMinutes
  max : ∀ cap ∈ fields.maxBalanceMinutes, InInteger cap
  carryover : ∀ cap ∈ fields.carryoverCapMinutes, InInteger cap

/-- The columns of the versions keep a version whose numbers fit, as it is. -/
theorem keeps_versionRow {w : Creation} {p : PolicyCreateIn} (h : p.toVersionFields.InColumns) :
    List.Forall₂ (fun c field => c.keep (versionRow w p) = some field)
      (table "policy_versions").columns (versionRow w p) := by
  have hkind : p.kind.value.length ≤ 32 := by
    cases p.kind <;> decide
  have hproration : p.newHireProration.value.length ≤ 32 := by
    cases p.newHireProration <;> decide
  rw [versionColumns]
  refine .cons (keep_eq_some.mpr ⟨rfl, store_uuid w.versionId⟩) ?_
  refine .cons (keep_eq_some.mpr ⟨rfl, store_uuid w.policyId⟩) ?_
  refine .cons (keep_eq_some.mpr ⟨rfl, store_integer (by decide : InInteger 1)⟩) ?_
  refine .cons (keep_eq_some.mpr ⟨rfl, rfl⟩) ?_
  refine .cons (keep_eq_some.mpr ⟨rfl, store_text hkind⟩) ?_
  refine .cons (keep_eq_some.mpr ⟨rfl, store_text w.actor_fits⟩) ?_
  refine .cons (keep_eq_some.mpr ⟨rfl, rfl⟩) ?_
  refine .cons (keep_eq_some.mpr ⟨rfl, store_text hproration⟩) ?_
  refine .cons (keep_eq_some.mpr ⟨rfl, rfl⟩) ?_
  refine .cons (keep_eq_some.mpr ⟨rfl, store_integer h.floor⟩) ?_
  refine .cons (keep_eq_some.mpr ⟨rfl, Column.store_ofOption rfl (by simp)
    fun cap hcap => store_integer (h.max cap hcap)⟩) ?_
  refine .cons (keep_eq_some.mpr ⟨rfl, Column.store_ofOption rfl (by simp)
    fun cap hcap => store_integer (h.carryover cap hcap)⟩) ?_
  refine .cons (keep_eq_some.mpr ⟨rfl, rfl⟩) ?_
  exact .cons (keep_eq_some.mpr ⟨rfl, store_text (by decide : "NEXT_PERIOD".length ≤ 32)⟩) .nil

theorem admits_versionRow (w : Creation) (p : PolicyCreateIn) :
    (table "policy_versions").Admits (versionRow w p) := by
  have hkind : ["UNLIMITED", "ACCRUAL"].contains p.kind.value = true := by
    cases p.kind <;> decide
  have hproration : ["PRORATE", "FULL", "NONE"].contains p.newHireProration.value = true := by
    cases p.newHireProration <;> decide
  unfold Table.Admits
  rw [versionChecks]
  simp only [List.forall_mem_cons, List.not_mem_nil]
  rw [eval_isIn (s := p.kind.value) rfl, eval_isIn (s := p.newHireProration.value) rfl,
    eval_isIn (s := "NEXT_PERIOD") rfl, hkind, hproration]
  simp

/-- A version is stored exactly if its numbers fit. -/
theorem insert_versionRow {w : Creation} {p : PolicyCreateIn} {row : Row} :
    (table "policy_versions").insert (versionRow w p) = some row ↔
      p.toVersionFields.InColumns ∧ row = versionRow w p := by
  constructor
  · intro h
    have hcolumn {c : Column} (hc : c ∈ (table "policy_versions").columns) :=
      Table.store_of_insert h hc
    rw [versionColumns] at hcolumn
    obtain ⟨_, hfloor⟩ :=
      hcolumn (c := { name := "negative_floor_minutes", type := .integer, nullable := false,
                      default := .integer 0 }) (by decide)
    obtain ⟨_, hmax⟩ :=
      hcolumn (c := { name := "max_balance_minutes", type := .integer }) (by decide)
    obtain ⟨_, hcarryover⟩ :=
      hcolumn (c := { name := "carryover_cap_minutes", type := .integer }) (by decide)
    have hcolumns : p.toVersionFields.InColumns :=
      ⟨inInteger_of_store hfloor, fun cap hcap => inInteger_of_store_ofOption rfl hmax hcap,
        fun cap hcap => inInteger_of_store_ofOption rfl hcarryover hcap⟩
    obtain ⟨-, hkeep, -⟩ := Table.insert_eq_some.mp h
    exact ⟨hcolumns, kept_unique hkeep (keeps_versionRow hcolumns)⟩
  · rintro ⟨hcolumns, rfl⟩
    refine Table.insert_eq_some.mpr ⟨?_, keeps_versionRow hcolumns, admits_versionRow w p⟩
    rw [versionColumns]
    rfl

/-- A policy is stored if its name fits. -/
theorem insert_policyRow {w : Creation} {p : PolicyCreateIn} (h : p.name.length ≤ 128) :
    (table "policies").insert (policyRow w p) = some (policyRow w p) := by
  have hchecks : (table "policies").checks = [] := by
    decide
  refine Table.insert_eq_some.mpr ⟨rfl, ?_, fun check hcheck => ?_⟩
  swap
  · rw [hchecks] at hcheck
    exact absurd hcheck List.not_mem_nil
  refine .cons (keep_eq_some.mpr ⟨rfl, store_uuid w.policyId⟩) ?_
  refine .cons (keep_eq_some.mpr ⟨rfl, store_text w.company_fits⟩) ?_
  refine .cons (keep_eq_some.mpr ⟨rfl, store_uuid p.categoryId⟩) ?_
  refine .cons (keep_eq_some.mpr ⟨rfl, store_text h⟩) ?_
  refine .cons (keep_eq_some.mpr ⟨rfl, store_text w.actor_fits⟩) ?_
  exact .cons (keep_eq_some.mpr ⟨rfl, rfl⟩) .nil

/-! ## Storing and reading back

A payload comes back if each of its rows does: what a column keeps unchanged is
what fits it. -/

/-- A payload is stored exactly if its version and all its rules are. -/
theorem store_eq_some {w : Creation} {p : PolicyCreateIn} {s : StoredPolicy}
    (h : p.name.length ≤ 128) :
    store w p = some s ↔
      (p.toVersionFields.InColumns ∧ ∀ rule ∈ p.rules, rule.toRuleFields.InColumns ∧
        ∀ f ∈ rule.frequency, f = .MONTHLY ∨ f = .YEARLY) ∧
      s = { policy := policyRow w p, version := versionRow w p,
            rules := p.rules.map (keptRule w) } := by
  unfold store
  rw [insert_policyRow h, Option.bind_eq_bind, Option.bind_some]
  constructor
  · intro hs
    obtain ⟨version, hversion, hs⟩ := Option.bind_eq_some_iff.mp hs
    obtain ⟨rules, hrules, hs⟩ := Option.bind_eq_some_iff.mp hs
    obtain ⟨hcolumns, rfl⟩ := insert_versionRow.mp hversion
    obtain ⟨hall, rfl⟩ := (Table.insertMany_map fun _ _ => insert_ruleRow).mp hrules
    cases hs
    exact ⟨⟨hcolumns, hall⟩, rfl⟩
  · rintro ⟨⟨hcolumns, hall⟩, rfl⟩
    refine Option.bind_eq_some_iff.mpr ⟨_, insert_versionRow.mpr ⟨hcolumns, rfl⟩, ?_⟩
    exact Option.bind_eq_some_iff.mpr
      ⟨_, (Table.insertMany_map fun _ _ => insert_ruleRow).mpr ⟨hall, rfl⟩, rfl⟩

/-- Reading gives back what was written. -/
theorem readVersion_versionRow (w : Creation) (p : PolicyCreateIn) :
    readVersion (versionRow w p) = some p.toVersionFields := by
  have hkind : (Value.text p.kind.value).member? [.UNLIMITED, .ACCRUAL] PolicyKind.value =
      some p.kind := by
    cases p.kind <;> rfl
  have hproration : (Value.text p.newHireProration.value).member? [.PRORATE, .FULL, .NONE]
      NewHireProration.value = some p.newHireProration := by
    cases p.newHireProration <;> rfl
  have hcap := nullable?_ofOption Value.integer Value.integer? (by simp) fun _ => rfl
  unfold readVersion
  simp only [versionRow, Row.get, List.lookup_cons]
  simp [hkind, hproration, hcap, Value.date?, Value.boolean?, Value.integer?]

theorem readRule_ruleRow (w : Creation) (rule : AccrualRule) :
    readRule (ruleRow w rule) = some rule.toRuleFields := by
  have hmethod : (Value.text rule.method.value).member? [.TIME, .HOURS_WORKED]
      AccrualMethod.value = some rule.method := by
    cases rule.method <;> rfl
  have hunit : (Value.text rule.unit.value).member? [.DAY, .HOUR, .MINUTE] RateUnit.value =
      some rule.unit := by
    cases rule.unit <;> rfl
  have hfrequency := nullable?_ofOption (fun f : Schedule => .text f.value)
    (Value.member? [.DAILY, .WEEKLY, .SEMIMONTHLY, .BIWEEKLY, .MONTHLY, .YEARLY]
      Schedule.value) (by simp) (by intro f; cases f <;> rfl) rule.frequency
  have hpoint := nullable?_ofOption (fun a : AccruesAt => .text a.value)
    (Value.member? [.START_OF_PERIOD, .END_OF_PERIOD] AccruesAt.value)
    (by simp) (by intro a; cases a <;> rfl) rule.accruesAt
  have hper := nullable?_ofOption Value.integer Value.integer? (by simp) (fun _ => rfl)
    rule.perMinutesWorked
  unfold readRule
  simp only [ruleRow, Row.get, List.lookup_cons]
  simp [hmethod, hunit, hfrequency, hpoint, hper, Value.decimal?, Value.integer?]

/-- Every part of the rule has a place in the schema: its schedule is one of the
two of migration 0001, and its numbers need no more than the columns have. -/
structure RuleFields.FitsSchema (rule : RuleFields) : Prop where
  frequency : ∀ f ∈ rule.frequency, f = .MONTHLY ∨ f = .YEARLY
  amount : ∃ n : Int, rule.amount = n / 10 ^ 4
  amount_lt : rule.amount < 10 ^ 8
  per_lt : ∀ per ∈ rule.perMinutesWorked, per < 2 ^ 31
  tenure_lt : rule.minTenureMonths < 2 ^ 31

/-- So do the rules and the version of the payload. -/
structure PolicyCreateIn.FitsSchema (p : PolicyCreateIn) : Prop where
  rules : ∀ rule ∈ p.rules, rule.toRuleFields.FitsSchema
  le_floor : -2 ^ 31 ≤ p.negativeFloorMinutes
  max_lt : ∀ cap ∈ p.maxBalanceMinutes, cap < 2 ^ 31
  carryover_lt : ∀ cap ∈ p.carryoverCapMinutes, cap < 2 ^ 31

/-- A rule fits the schema when it is stored and loses no digit. -/
theorem RuleFields.fitsSchema_iff {rule : RuleFields} (hamount : 0 < rule.amount)
    (hper : ∀ per ∈ rule.perMinutesWorked, 0 < per) (htenure : 0 ≤ rule.minTenureMonths) :
    rule.FitsSchema ↔
      (rule.InColumns ∧ ∀ f ∈ rule.frequency, f = .MONTHLY ∨ f = .YEARLY) ∧
        Decimal.quantize 4 rule.amount = rule.amount := by
  constructor
  · intro h
    have hexact := Decimal.quantize_eq_self_iff.mpr h.amount
    refine ⟨⟨⟨?_, fun per hp => ?_, ?_⟩, h.frequency⟩, hexact⟩
    · rw [hexact, abs_of_pos hamount]
      exact h.amount_lt
    · have hpos := hper per hp
      exact ⟨by omega, h.per_lt per hp⟩
    · exact ⟨by omega, h.tenure_lt⟩
  · rintro ⟨⟨hcolumns, hfrequency⟩, hexact⟩
    refine ⟨hfrequency, Decimal.quantize_eq_self_iff.mp hexact, ?_,
      fun per hp => (hcolumns.per per hp).2, hcolumns.tenure.2⟩
    have hlt := hcolumns.amount
    rwa [hexact, abs_of_pos hamount] at hlt

/-- The payload is stored, and what is read back is what was sent, the rules in
any order. -/
def RoundTrips (w : Creation) (p : PolicyCreateIn) : Prop :=
  ∃ s, store w p = some s ∧ readVersion s.version = some p.toVersionFields ∧
    (s.rules.map readRule).Perm (p.rules.map fun rule => some rule.toRuleFields)

namespace Demo

/-- The admin creates the policy. -/
def creation : Creation where
  companyId := "cmp_warp_demo"
  actorId := "adm_lindsey"
  policyId := policyId
  versionId := versionId
  company_fits := by decide
  actor_fits := by decide

/-- One hour of vacation, credited on a schedule. -/
def accruing (frequency : Schedule) : PolicyCreateIn :=
  { name := "Vacation", categoryId, effectiveFrom := ofYmd 2026 1 1, kind := .ACCRUAL
    rules := [{ id := ruleId, method := .TIME, amount := 1, unit := .HOUR
                frequency := some frequency, accruesAt := some .END_OF_PERIOD }] }

end Demo

/-- A weekly policy is accepted, and no migration has let in its schedule. -/
theorem weekly_not_stored :
    ¬ ∀ (w : Creation) (p : PolicyCreateIn), p.Accepted → RoundTrips w p := by
  intro h
  obtain ⟨s, hs, -⟩ := h Demo.creation (Demo.accruing .WEEKLY) ⟨by decide, by decide +kernel⟩
  obtain ⟨⟨-, hall⟩, -⟩ := (store_eq_some (by decide)).mp hs
  have hweekly := (hall _ (List.mem_cons_self ..)).2 .WEEKLY rfl
  exact absurd hweekly (by decide)

/-- An accepted payload comes back as it was sent exactly if its rules and
numbers fit the schema. -/
theorem roundTrips_iff (w : Creation) (p : PolicyCreateIn) (h : p.Accepted) :
    RoundTrips w p ↔ p.FitsSchema := by
  obtain ⟨hrules, hfloor, hmax, hcarryover⟩ := PolicyService.inRange_of_validateVersion h.version
  have hfits : ∀ rule ∈ p.rules, rule.toRuleFields.FitsSchema ↔ _ := fun rule hrule =>
    RuleFields.fitsSchema_iff (hrules rule hrule).1 (hrules rule hrule).2.1 (hrules rule hrule).2.2
  unfold RoundTrips
  simp only [store_eq_some h.name.2]
  constructor
  · rintro ⟨_, ⟨⟨hcolumns, hall⟩, rfl⟩, -, hperm⟩
    refine ⟨fun rule hrule => (hfits rule hrule).mpr ⟨hall rule hrule, ?_⟩, hcolumns.floor.1,
      fun cap hcap => (hcolumns.max cap hcap).2, fun cap hcap => (hcolumns.carryover cap hcap).2⟩
    -- the rule that reads back as this one has a rounded amount
    have hread := hperm.mem_iff.mpr (List.mem_map_of_mem hrule)
    rw [List.map_map] at hread
    obtain ⟨sent, -, hsent⟩ := List.mem_map.mp hread
    rw [Function.comp_apply, keptRule, readRule_ruleRow] at hsent
    have hamount := congrArg RuleFields.amount (Option.some.inj hsent)
    obtain ⟨k, hk⟩ := Decimal.exists_quantize_eq 4 sent.amount
    exact Decimal.quantize_eq_self_iff.mpr ⟨k, hamount.symm.trans hk⟩
  · intro hall
    refine ⟨_, ⟨⟨⟨⟨hall.le_floor, ?_⟩, fun cap hcap => ⟨?_, hall.max_lt cap hcap⟩,
      fun cap hcap => ⟨?_, hall.carryover_lt cap hcap⟩⟩,
      fun rule hrule => ((hfits rule hrule).mp (hall.rules rule hrule)).1⟩, rfl⟩,
      readVersion_versionRow w p, List.Perm.of_eq ?_⟩
    · omega
    · have := hmax cap hcap
      omega
    · have := hcarryover cap hcap
      omega
    · rw [List.map_map]
      refine List.map_congr_left fun rule hrule => ?_
      rw [Function.comp_apply, keptRule, readRule_ruleRow,
        ((hfits rule hrule).mp (hall.rules rule hrule)).2]

/-- A monthly policy comes back. -/
theorem roundTrips_iff_of_monthly : RoundTrips Demo.creation (Demo.accruing .MONTHLY) :=
  (roundTrips_iff _ _ ⟨by decide, by decide +kernel⟩).mpr
    { rules := by
        intro rule hrule
        rw [List.mem_singleton.mp hrule]
        exact ⟨by decide, ⟨10 ^ 4, by decide +kernel⟩, by decide +kernel, by decide, by decide⟩
      le_floor := by decide
      max_lt := by decide
      carryover_lt := by decide }

end TimeOff
