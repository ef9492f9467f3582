import TimeOff.Accrual.CatchUp
import TimeOff.Lib.Turns

/-!
# Row order

The scheduled job reads the assignments, and the rules of each version, without
asking for an order. A `RowOrder` says in which order the database returns them.
The credits of a run are then a nest of loops (`scheduledPlan_inOrder`): rounds
for the assignments, stages for the versions by their numbers, and parts for the
rules. Another order permutes the rounds and the parts of every stage, and
changes nothing else about the credits.

That nothing else changes is where the rest of the plan comes in. What a credit
is worth, its date and its source do not depend on the order, because every
choice in the loops is made by a maximum that is reached once: the version in
force on a day begins on one date (`versionEffectiveOn_inOrder`), and the tiers
of a version begin at different tenures, so that the same rule is selected
(`selectedRule_inOrder`). Whether a run goes through at all does not depend on
the order either (`exists_scheduledPlan_inOrder`).
-/

namespace TimeOff

open Gregorian

/-- The order in which the database returns the assignments and the rules of
each version. -/
structure RowOrder (c : Catalog) where
  assignments : List PolicyAssignment
  rules : PolicyVersion → List AccrualRule
  assignments_perm : assignments.Perm c.assignments.rows
  rules_perm : ∀ v, (rules v).Perm v.rules

namespace RowOrder

variable {c : Catalog}

/-- The order of the tables. -/
def stored (c : Catalog) : RowOrder c := ⟨c.assignments.rows, (·.rules), .refl _, fun _ => .refl _⟩

variable (o : RowOrder c)

/-- A version with its rules in the order they are returned in. -/
def version (v : PolicyVersion) : PolicyVersion := { v with rules := o.rules v }

/-- The constraints of the tables do not speak of an order. -/
theorem versionsOnce : VersionsOnce (c.versions.rows.map o.version) := by
  obtain ⟨hid, hnumber, heffective, hrule⟩ := c.versions.holds
  refine ⟨?_, ?_, ?_, ?_⟩
  · rw [List.map_map]
    exact hid
  · rw [List.map_map]
    exact hnumber
  · rw [List.map_map]
    exact heffective
  · rw [List.flatMap_map]
    refine (List.Perm.map _ (List.Perm.flatMap_left _ fun v _ => ?_)).nodup_iff.mpr hrule
    exact o.rules_perm v

theorem assignmentsApart : AssignmentsApart o.assignments := by
  obtain ⟨hid, hordered, hapart⟩ := c.assignments.holds
  refine ⟨(o.assignments_perm.map _).nodup_iff.mpr hid,
    fun a ha => hordered a (o.assignments_perm.subset ha), ?_⟩
  refine (o.assignments_perm.pairwise_iff fun {a b} hab hba => hab ?_).mpr hapart
  obtain ⟨hemployee, hcategory, hb, ha⟩ := hba
  exact ⟨hemployee.symm, hcategory.symm, ha, hb⟩

end RowOrder

/-- The catalog as the database returns it in another order. -/
def Catalog.inOrder (c : Catalog) (o : RowOrder c) : Catalog :=
  { c with
    versions := ⟨c.versions.rows.map o.version, o.versionsOnce⟩
    assignments := ⟨o.assignments, o.assignmentsApart⟩ }

/-- The database whose queries return rows in another order. -/
def Db.inOrder (db : Db) (o : RowOrder db.catalog) : Db :=
  { db with catalog := db.catalog.inOrder o }

/-- Rows in the order of the tables. -/
theorem Db.inOrder_stored (db : Db) : db.inOrder (.stored db.catalog) = db := by
  have hrows : db.catalog.versions.rows.map (RowOrder.stored db.catalog).version
      = db.catalog.versions.rows := List.map_id _
  show { db with catalog := { db.catalog with
    versions := ⟨_, _⟩, assignments := db.catalog.assignments } } = db
  simp only [hrows]

/-! ## First maxima -/

/-- The first maximum of a list of images. -/
theorem List.maxOn?_map {α β : Type} (g : α → β) (f : β → Date) (l : List α) :
    (l.map g).maxOn? f = (l.maxOn? fun x => f (g x)).map g := by
  induction l with
  | nil => rfl
  | cons x l ih =>
    rw [List.map_cons, List.maxOn?_cons, List.maxOn?_cons, ih]
    cases (l.maxOn? fun x => f (g x)) with
    | none => rfl
    | some y =>
      simp only [Option.map_some, Option.elim_some, maxOn, minOn]
      rw [apply_ite g]

/-- A maximum at one element only does not depend on the order. -/
theorem List.maxOn?_perm {α : Type} {f : α → Int} {l l' : List α} (h : l.Perm l')
    (hf : ∀ x ∈ l, ∀ y ∈ l, f x = f y → x = y) : l.maxOn? f = l'.maxOn? f := by
  cases hl : l.maxOn? f with
  | none =>
    have hnil : l = [] := by
      by_contra hne
      have hsome : (l.maxOn? f).isSome := List.isSome_maxOn?_iff.mpr hne
      rw [hl] at hsome
      cases hsome
    rw [hnil] at h
    rw [List.nil_perm.mp h]
    rfl
  | some x =>
    have hx := List.maxOn?_mem hl
    obtain ⟨y, hy⟩ := Option.isSome_iff_exists.mp (List.isSome_maxOn?_iff.mpr
      (List.ne_nil_of_mem (h.subset hx)) : (l'.maxOn? f).isSome)
    have hmem := h.symm.subset (List.maxOn?_mem hy)
    have hle := List.le_apply_get_maxOn?_of_mem (f := f) hmem
    have hle' := List.le_apply_get_maxOn?_of_mem (f := f) (h.subset hx)
    rw [Option.get_of_eq_some _ hl] at hle
    rw [Option.get_of_eq_some _ hy] at hle'
    rw [hy, hf x hx y hmem (le_antisymm hle' hle)]

/-! ## Reads in another order

A read of the catalog gives the same rows in another order, and the same row
where it takes a maximum: versions begin on different days, tiers at different
tenures. -/

namespace Catalog

variable {c : Catalog} (o : RowOrder c)

/-- The version in force is the one that begins last, in any order. -/
theorem versionEffectiveOn_inOrder (policyId : Uuid) (day : Date) :
    (c.inOrder o).versionEffectiveOn policyId day
      = (c.versionEffectiveOn policyId day).map o.version := by
  simp only [versionEffectiveOn, inOrder]
  rw [List.filter_map]
  exact List.maxOn?_map o.version _ _

/-- The versions of a policy are sorted by their numbers. -/
theorem versionsOf_inOrder (policyId : Uuid) :
    (c.inOrder o).versionsOf policyId = (c.versionsOf policyId).map o.version := by
  simp only [versionsOf, inOrder]
  rw [List.filter_map]
  exact (List.map_insertionSort _ _ o.version _ fun _ _ _ _ => Iff.rfl).symm

/-- The assignments that have begun, up to their order. -/
theorem assignmentsBegun_inOrder_perm (companyId : String) (asOf : Date) :
    ((c.inOrder o).assignmentsBegun companyId asOf).Perm (c.assignmentsBegun companyId asOf) :=
  o.assignments_perm.filter _

end Catalog

namespace AccrualService

variable {cat : Catalog} (o : RowOrder cat)

/-- Tiers that begin at different tenures: the rules select the same tier in any
order. -/
theorem selectedRule_inOrder {v : PolicyVersion} (hv : v.Tiered) (method : AccrualMethod)
    (tenure : Int) :
    selectedRule (eligibleRules (o.version v) method tenure)
      = selectedRule (eligibleRules v method tenure) := by
  have hperm : (eligibleRules (o.version v) method tenure).Perm (eligibleRules v method tenure) :=
    (o.rules_perm v).filter _
  have honce : ∀ x ∈ eligibleRules (o.version v) method tenure,
      ∀ y ∈ eligibleRules (o.version v) method tenure,
        x.minTenureMonths = y.minTenureMonths → x = y := by
    intro x hx y hy hxy
    exact List.inj_on_of_nodup_map hv.once (List.mem_of_mem_filter (hperm.subset hx))
      (List.mem_of_mem_filter (hperm.subset hy)) hxy
  simp only [selectedRule]
  rw [List.maxOn?_perm hperm honce]

/-- The postings of a plan, if there is one. -/
def planned (plan : Except Error (List Posting)) : List Posting := plan.toOption.getD []

/-- A plan that goes through joins the postings of its rounds. -/
theorem planFor_eq_flatMap {α : Type} {xs : List α} {plan : α → Except Error (List Posting)}
    {ps : List Posting} (h : planFor xs plan = .ok ps) :
    ps = xs.flatMap fun x => planned (plan x) := by
  induction xs generalizing ps with
  | nil =>
    cases h
    rfl
  | cons x xs ih =>
    obtain ⟨qs, hx, h⟩ := Except.bind_eq_ok.mp h
    obtain ⟨rs, hxs, h⟩ := Except.bind_eq_ok.mp h
    cases h
    rw [List.flatMap_cons, hx, ih hxs]
    rfl

/-- The postings of the job for a rule of a version of an assignment. -/
def rulePostings (cat : Catalog) (dir : Directory) (companyId : String) (asOf : Date)
    (assignment : PolicyAssignment) (version : PolicyVersion) (rule : AccrualRule) :
    Except Error (List Posting) := do
  let company ← dir.company companyId
  let employee ← dir.employee assignment.employeeId
  rulePlan cat company (ruleScope companyId asOf employee assignment version rule)

/-- The same, without a posting where the plan has none. -/
def ruleCredits (cat : Catalog) (dir : Directory) (companyId : String) (asOf : Date)
    (assignment : PolicyAssignment) (version : PolicyVersion) (rule : AccrualRule) : List Posting :=
  planned (rulePostings cat dir companyId asOf assignment version rule)

variable {dir : Directory} {companyId : String} {asOf : Date}

/-- With the company and the employee at hand, they are the plan of the rule. -/
theorem rulePostings_eq {company : Company} {employee : Employee} {a : PolicyAssignment}
    {v : PolicyVersion} {rule : AccrualRule} (hcompany : dir.company companyId = .ok company)
    (hemployee : dir.employee a.employeeId = .ok employee) :
    rulePostings cat dir companyId asOf a v rule
      = rulePlan cat company (ruleScope companyId asOf employee a v rule) := by
  simp only [rulePostings]
  rw [hcompany, hemployee]
  rfl

/-- A run goes through when every rule of every version that it reaches does. -/
theorem exists_scheduledPlan_iff :
    (∃ ps, scheduledPlan cat dir companyId asOf = .ok ps) ↔
      (∃ company, dir.company companyId = .ok company) ∧
        ∀ a ∈ cat.assignmentsBegun companyId asOf,
          (∃ employee, dir.employee a.employeeId = .ok employee) ∧
            ∀ v ∈ cat.versionsOf a.policyId, ∀ rule ∈ v.rules,
              ∃ ps, rulePostings cat dir companyId asOf a v rule = .ok ps := by
  constructor
  · rintro ⟨ps, hps⟩
    obtain ⟨company, hcompany, hps⟩ := Except.bind_eq_ok.mp hps
    refine ⟨⟨company, hcompany⟩, fun a ha => ?_⟩
    obtain ⟨qs, hround⟩ := ok_of_planFor hps ha
    obtain ⟨employee, hemployee, hstages⟩ := Except.bind_eq_ok.mp hround
    refine ⟨⟨employee, hemployee⟩, fun v hv rule hrule => ?_⟩
    obtain ⟨rs, hparts⟩ := ok_of_planFor hstages hv
    obtain ⟨ts, hrule⟩ := ok_of_planFor hparts hrule
    exact ⟨ts, Except.bind_eq_ok.mpr ⟨company, hcompany,
      Except.bind_eq_ok.mpr ⟨employee, hemployee, hrule⟩⟩⟩
  · rintro ⟨⟨company, hcompany⟩, h⟩
    have hrounds : ∃ ps, planFor (cat.assignmentsBegun companyId asOf)
        (assignmentPlan cat dir companyId company asOf) = .ok ps := by
      refine planFor_ok fun a ha => ?_
      obtain ⟨⟨employee, hemployee⟩, hrules⟩ := h a ha
      have hstages : ∃ ps, planFor (cat.versionsOf a.policyId) (fun v => planFor v.rules fun rule =>
          rulePlan cat company (ruleScope companyId asOf employee a v rule)) = .ok ps := by
        refine planFor_ok fun v hv => planFor_ok fun rule hrule => ?_
        obtain ⟨ts, hts⟩ := hrules v hv rule hrule
        exact ⟨ts, (rulePostings_eq hcompany hemployee).symm.trans hts⟩
      obtain ⟨qs, hstages⟩ := hstages
      exact ⟨qs, Except.bind_eq_ok.mpr ⟨employee, hemployee, hstages⟩⟩
    obtain ⟨ps, hrounds⟩ := hrounds
    exact ⟨ps, Except.bind_eq_ok.mpr ⟨company, hcompany, hrounds⟩⟩

/-- The postings of a run are a nest of loops. -/
theorem scheduledPlan_eq_nest {ps : List Posting}
    (h : scheduledPlan cat dir companyId asOf = .ok ps) :
    ps = Turns.nest (fun a => cat.versionsOf a.policyId) (ruleCredits cat dir companyId asOf)
      (cat.assignmentsBegun companyId asOf) (·.rules) := by
  obtain ⟨company, hcompany, h⟩ := Except.bind_eq_ok.mp h
  have hrounds : ∀ a ∈ cat.assignmentsBegun companyId asOf,
      planned (assignmentPlan cat dir companyId company asOf a)
        = Turns.round (fun a => cat.versionsOf a.policyId) (ruleCredits cat dir companyId asOf)
          (·.rules) a := by
    intro a ha
    obtain ⟨qs, hround⟩ := ok_of_planFor h ha
    obtain ⟨employee, hemployee, hstages⟩ := Except.bind_eq_ok.mp hround
    have hitems : ∀ v rule, planned (rulePlan cat company
        (ruleScope companyId asOf employee a v rule))
          = ruleCredits cat dir companyId asOf a v rule :=
      fun v rule => congrArg planned (rulePostings_eq hcompany hemployee).symm
    rw [hround]
    refine (planFor_eq_flatMap hstages).trans (List.flatMap_congr fun v hv => ?_)
    obtain ⟨rs, hparts⟩ := ok_of_planFor hstages hv
    rw [hparts]
    refine (planFor_eq_flatMap hparts).trans (List.flatMap_congr fun rule _ => hitems v rule)
  exact (planFor_eq_flatMap h).trans (List.flatMap_congr hrounds)

/-! ## Another order

The credits of a run are nested loops over assignments, versions and rules, so
those of another row order are a permutation that respects the nest. -/

/-- The scope of a rule as the loops reach it in another order. -/
def RuleScope.inOrder (s : RuleScope) : RuleScope := { s with version := o.version s.version }

/-- A period is credited alike. -/
theorem periodPlan_inOrder {s : RuleScope} (hv : s.version.Tiered) (period : Period) :
    (s.inOrder o).periodPlan (cat.inOrder o) period = s.periodPlan cat period := by
  have hactive : ((cat.inOrder o).versionEffectiveOn s.assignment.policyId
      (s.effective period)).map (·.id)
      = (cat.versionEffectiveOn s.assignment.policyId (s.effective period)).map (·.id) := by
    rw [Catalog.versionEffectiveOn_inOrder, Option.map_map]
    rfl
  have hdecision : (s.inOrder o).decision period ((cat.inOrder o).versionEffectiveOn
      s.assignment.policyId (s.effective period))
      = s.decision period
        (cat.versionEffectiveOn s.assignment.policyId (s.effective period)) := by
    simp only [RuleScope.decision]
    rw [hactive]
    have hselected := selectedRule_inOrder o hv .TIME
      (completedTenureMonths s.employee.startDate period.start)
    simp only [RuleScope.inOrder]
    rw [hselected]
    rfl
  simp only [RuleScope.periodPlan]
  exact congrArg (fun d => if s.through < s.effective period then .ok [] else planDecision d)
    hdecision

/-- And so is a rule. -/
theorem rulePostings_inOrder {a : PolicyAssignment} {v : PolicyVersion} (hv : v.Tiered)
    (rule : AccrualRule) :
    rulePostings (cat.inOrder o) dir companyId asOf a (o.version v) rule
      = rulePostings cat dir companyId asOf a v rule := by
  have hrule : ∀ company employee,
      rulePlan (cat.inOrder o) company (ruleScope companyId asOf employee a (o.version v) rule)
        = rulePlan cat company (ruleScope companyId asOf employee a v rule) := by
    intro company employee
    have hscope : ruleScope companyId asOf employee a (o.version v) rule
        = (ruleScope companyId asOf employee a v rule).map (RuleScope.inOrder o) := by
      simp only [ruleScope]
      split <;> rfl
    rw [hscope]
    cases hs : ruleScope companyId asOf employee a v rule with
    | none => rfl
    | some s =>
      have hversion : s.version = v := by
        rw [(ruleScope_eq_some hs).2.2]
      have hperiods : (s.inOrder o).periodPlan (cat.inOrder o) = s.periodPlan cat :=
        funext fun period => periodPlan_inOrder o (hversion ▸ hv) period
      simp only [Option.map_some, rulePlan]
      rw [hperiods]
      rfl
  simp only [rulePostings]
  simp only [hrule]

/-- What a run credits when the rows come in an order. -/
def credits (dir : Directory) (companyId : String) (asOf : Date) : List Posting :=
  Turns.nest (fun a => cat.versionsOf a.policyId) (ruleCredits cat dir companyId asOf)
    ((cat.inOrder o).assignmentsBegun companyId asOf) o.rules

/-- Two orders credit the same, up to the order of the credits. -/
theorem credits_perm (o' : RowOrder cat) :
    (credits o dir companyId asOf).Perm (credits o' dir companyId asOf) :=
  Turns.nest_perm
    ((Catalog.assignmentsBegun_inOrder_perm o companyId asOf).trans
      (Catalog.assignmentsBegun_inOrder_perm o' companyId asOf).symm)
    fun v => (o.rules_perm v).trans (o'.rules_perm v).symm

/-- A run credits what its order says. -/
theorem scheduledPlan_inOrder (htiered : ∀ v ∈ cat.versions.rows, v.Tiered) {ps : List Posting}
    (h : scheduledPlan (cat.inOrder o) dir companyId asOf = .ok ps) :
    ps = credits o dir companyId asOf := by
  refine (scheduledPlan_eq_nest h).trans (List.flatMap_congr fun a _ => ?_)
  simp only [Turns.round]
  rw [Catalog.versionsOf_inOrder, List.flatMap_map]
  refine List.flatMap_congr fun v hv => List.flatMap_congr fun rule _ => ?_
  exact congrArg planned
    (rulePostings_inOrder o (htiered v (Catalog.mem_versionsOf.mp hv).1) rule)

/-- A run goes through in every order or in none. -/
theorem exists_scheduledPlan_inOrder (htiered : ∀ v ∈ cat.versions.rows, v.Tiered) :
    (∃ ps, scheduledPlan (cat.inOrder o) dir companyId asOf = .ok ps) ↔
      ∃ ps, scheduledPlan cat dir companyId asOf = .ok ps := by
  rw [exists_scheduledPlan_iff, exists_scheduledPlan_iff]
  refine and_congr_right fun _ => ?_
  have hround : ∀ a : PolicyAssignment,
      (∀ v ∈ (cat.inOrder o).versionsOf a.policyId, ∀ rule ∈ v.rules,
        ∃ ps, rulePostings (cat.inOrder o) dir companyId asOf a v rule = .ok ps) ↔
      ∀ v ∈ cat.versionsOf a.policyId, ∀ rule ∈ v.rules,
        ∃ ps, rulePostings cat dir companyId asOf a v rule = .ok ps := by
    intro a
    rw [Catalog.versionsOf_inOrder]
    simp only [List.forall_mem_map]
    refine forall₂_congr fun v hv => ?_
    have hv := htiered v (Catalog.mem_versionsOf.mp hv).1
    constructor
    · intro h rule hrule
      rw [← rulePostings_inOrder o hv]
      exact h rule ((o.rules_perm v).symm.subset hrule)
    · intro h rule hrule
      rw [rulePostings_inOrder o hv]
      exact h rule ((o.rules_perm v).subset hrule)
  have hbegun := Catalog.assignmentsBegun_inOrder_perm o companyId asOf
  constructor
  · intro h a ha
    exact (h a (hbegun.symm.subset ha)).imp_right (hround a).mp
  · intro h a ha
    exact (h a (hbegun.subset ha)).imp_right (hround a).mpr

end AccrualService

/-- The order in which a run takes given assignments and rules. -/
def RowOrder.taking {c : Catalog} {companyId : String} {asOf : Date} {as' : List PolicyAssignment}
    {parts' : PolicyVersion → List AccrualRule} (has : as'.Perm (c.assignmentsBegun companyId asOf))
    (hparts : ∀ v, (parts' v).Perm v.rules) : RowOrder c where
  assignments := as' ++ c.assignments.rows.filter fun a =>
    !decide (a.companyId = companyId ∧ a.effectiveFrom ≤ asOf)
  rules := parts'
  assignments_perm := (has.append_right _).trans (List.filter_append_perm _ _)
  rules_perm := hparts

/-- In that order, a run is the nest of loops over what was given. -/
theorem AccrualService.credits_taking {cat : Catalog} {dir : Directory} {companyId : String}
    {asOf : Date} {as' : List PolicyAssignment} {parts' : PolicyVersion → List AccrualRule}
    (has : as'.Perm (cat.assignmentsBegun companyId asOf))
    (hparts : ∀ v, (parts' v).Perm v.rules) :
    credits (.taking has hparts) dir companyId asOf
      = Turns.nest (fun a => cat.versionsOf a.policyId) (ruleCredits cat dir companyId asOf) as'
        parts' := by
  have hbegun : (cat.inOrder (.taking has hparts)).assignmentsBegun companyId asOf = as' := by
    show (as' ++ cat.assignments.rows.filter fun a =>
      !decide (a.companyId = companyId ∧ a.effectiveFrom ≤ asOf)).filter _ = as'
    rw [List.filter_append, List.filter_filter]
    have hall : as'.filter (fun a => decide (a.companyId = companyId ∧ a.effectiveFrom ≤ asOf))
        = as' := List.filter_eq_self.mpr fun a ha => (List.mem_filter.mp (has.subset ha)).2
    rw [hall]
    simp
  simp only [credits]
  rw [hbegun]
  rfl

end TimeOff
