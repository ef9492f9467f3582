import TimeOff.Accrual.Balances
import TimeOff.Accrual.Credits
import TimeOff.Accrual.RowOrder
import TimeOff.Eligibility.Categories

/-!
# What the postings of a run leave

A posting leaves its credit less its cap loss in its account. The cap looks at
the balance up to the date of the credit, and so at the postings of the run that
came before with a date no later: postings take turns (`Turns.Outcome`), and the
balances after a run are the ones before it and what the postings have left
(`Db.outcome_postAccruals`).

The postings of a scheduled run have different keys (`credits_keys`), those of
one account have different dates (`Scheduled.posting_eq_of_date`), and those of
a date are the ones of a later run that are dated by then (`credits_filter`).

The first of these makes the library applicable: whether a source is taken
depends on the ledger before the run and on no other posting of it, so each
posting is a function of one number, the balance its cap looks at. The second
says that an outcome can be read off the balances, one date after the other. The
third compares runs of different dates, which walk the same periods as far as
the earlier one goes.
-/

namespace TimeOff

open Gregorian AccrualService

/-- A balance of an account, up to a day or in total, counts the posting. -/
def Posting.Within (q : Posting) (x : Account × Option Date) : Prop :=
  q.account = x.1 ∧ ∀ day ∈ x.2, q.effectiveDate ≤ day

instance Posting.decidableWithin (q : Posting) (x : Account × Option Date) :
    Decidable (q.Within x) :=
  inferInstanceAs (Decidable (_ ∧ ∀ day ∈ x.2, _))

/-- The cap of `p` looks at what `q` has left. -/
def Posting.Counts (q p : Posting) : Prop := q.Within (p.account, some p.effectiveDate)

instance : DecidableRel Posting.Counts := fun q p =>
  inferInstanceAs (Decidable (q.Within (p.account, some p.effectiveDate)))

/-- The minutes a posting leaves, when the postings before it have added `x` to
the balance its cap looks at. -/
def Posting.leaves (ledger : Ledger) (p : Posting) (x : Int) : Int :=
  p.credits ledger - if Table.Has ledger p.lossKey then 0
    else (p.maxBalanceMinutes.map fun cap =>
      max (ledger.balance p.account (some p.effectiveDate) + x + p.amount - cap) 0).getD 0

namespace Db

variable {db : Db} {c : Catalog} {ps : List Posting} {p : Posting}

/-- Postings of other keys take neither the source of a credit nor that of its
loss. -/
theorem has_postAccruals_of_ne {k : SourceKey} (hkey : ∀ q ∈ ps, q.credit.key ≠ k)
    (hloss : ∀ q ∈ ps, q.lossKey ≠ k) :
    Table.Has (db.postAccruals ps).ledger k ↔ Table.Has db.ledger k := by
  obtain ⟨es, heq, hes⟩ := postAccruals_eq_posts ps db
  rw [heq, has_ledger_posts]
  refine or_iff_left ?_
  rintro ⟨e, he, hk⟩
  obtain ⟨q, hq, hposts⟩ := hes e he
  rcases hposts with rfl | ⟨cap, -, forfeited, -, rfl⟩
  · exact hkey q hq hk
  · exact hloss q hq hk

/-- So a posting finds its sources as they were before the run. -/
theorem apart_of_issued (db : Db) (hissued : ∀ q ∈ ps, q.Issued c) (hp : p.Issued c)
    (hnew : p.credit.key ∉ ps.map fun q => q.credit.key) :
    (Table.Has (db.postAccruals ps).ledger p.credit.key ↔ Table.Has db.ledger p.credit.key) ∧
      (Table.Has (db.postAccruals ps).ledger p.lossKey ↔ Table.Has db.ledger p.lossKey) := by
  have hkey : ∀ q ∈ ps, q.credit.key ≠ p.credit.key := fun q hq heq =>
    hnew (List.mem_map.mpr ⟨q, hq, heq⟩)
  constructor
  · refine has_postAccruals_of_ne hkey fun q _ heq => ?_
    exact hp.plain q.sourceId (Prod.mk.inj heq).2.symm
  · refine has_postAccruals_of_ne (fun q hq heq => ?_) fun q hq heq => ?_
    · exact (hissued q hq).plain p.sourceId (Prod.mk.inj heq).2
    · obtain ⟨htype, hid⟩ := Prod.mk.inj heq
      exact hkey q hq (Prod.ext htype ((String.append_left_inj _).mp hid))

/-- The balances after postings of different keys, and what each of them leaves. -/
theorem outcome_postAccruals (db : Db) (hkeys : (ps.map fun p => p.credit.key).Nodup)
    (hissued : ∀ p ∈ ps, p.Issued c) :
    ∃ n, Turns.Outcome Posting.Counts (Posting.leaves db.ledger) n ps ∧
      ∀ a asOf, (db.postAccruals ps).ledger.balance a asOf
        = db.ledger.balance a asOf + Turns.met Posting.Within n ps (a, asOf) := by
  induction ps using List.reverseRecOn with
  | nil => exact ⟨fun _ => 0, .nil, fun a asOf => (Int.add_zero _).symm⟩
  | append_singleton ps p ih =>
    rw [List.map_append, List.map_singleton] at hkeys
    obtain ⟨hkeys, hnew⟩ : (ps.map fun q => q.credit.key).Nodup ∧
        p.credit.key ∉ ps.map fun q => q.credit.key := by
      rw [← List.concat_eq_append, List.nodup_concat] at hkeys
      exact hkeys.symm
    have hissued' : ∀ q ∈ ps, q.Issued c := fun q hq => hissued q (List.mem_append_left _ hq)
    obtain ⟨n, hn, hbalance⟩ := ih hkeys hissued'
    obtain ⟨hcredit, hloss⟩ := apart_of_issued db hissued' (hissued p (by simp)) hnew
    -- the last posting leaves what it does after the others
    let left : Int := p.leaves db.ledger (Turns.met Posting.Counts n ps p)
    have hleft : p.credits (db.postAccruals ps).ledger - p.forfeits (db.postAccruals ps).ledger
        = left := by
      have hbefore := hbalance p.account (some p.effectiveDate)
      simp only [Posting.credits, Posting.forfeits, left, Posting.leaves]
      simp only [hcredit, hloss]
      rw [hbefore]
      rfl
    let n' : Posting → Int := fun q => if q = p then left else n q
    have hsame : ∀ q ∈ ps, n q = n' q := by
      intro q hq
      have hne : q ≠ p := by
        rintro rfl
        exact hnew (List.mem_map_of_mem hq)
      exact (if_neg hne).symm
    have hp : n' p = left := if_pos rfl
    refine ⟨n', (hn.congr hsame).snoc ?_, fun a asOf => ?_⟩
    · have hmet : Turns.met Posting.Counts n ps p = Turns.met Posting.Counts n' ps p :=
        Turns.met_congr fun q hq _ => hsame q hq
      rw [hp, ← hmet]
    · have hmet : Turns.met Posting.Within n ps (a, asOf)
          = Turns.met Posting.Within n' ps (a, asOf) := Turns.met_congr fun q hq _ => hsame q hq
      have hlast : (db.postAccruals (ps ++ [p])).ledger.balance a asOf
          = (db.postAccruals ps).ledger.balance a asOf
            + if p.Within (a, asOf) then left else 0 := by
        rw [postAccruals_append]
        show ((db.postAccruals ps).postAccrual p).ledger.balance a asOf = _
        by_cases ha : p.account = a
        · subst ha
          rw [balance_postAccrual, hleft]
          simp only [Posting.Within]
          simp only [true_and]
        · have hout : ¬ p.Within (a, asOf) := fun h => ha h.1
          rw [balance_postAccrual_of_ne ha, if_neg hout, Int.add_zero]
      rw [hlast, hbalance, hmet, Turns.met_append, Turns.met_singleton, hp, Int.add_assoc]

end Db

namespace AccrualService

variable {cat : Catalog} {dir : Directory} {companyId companyId' : String} {asOf asOf' day : Date}
  {s s' : RuleScope} {period period' : Period} {p p' : Posting} {a : PolicyAssignment}
  {v : PolicyVersion} {rule : AccrualRule} {ps : List Posting}

/-! ## The credits of a rule -/

/-- A period is credited once, if it is due, or not at all. -/
theorem planned_periodPlan (cat : Catalog) (s : RuleScope) (period : Period) :
    planned (s.periodPlan cat period) = [] ∨
      s.effective period ≤ s.through ∧
        planned (s.periodPlan cat period) = [s.posting period] := by
  simp only [RuleScope.periodPlan]
  split
  · exact Or.inl rfl
  next hdue =>
  cases hdecision : s.decision period
      (cat.versionEffectiveOn s.assignment.policyId (s.effective period)) with
  | error e => exact Or.inl rfl
  | ok found =>
    cases found with
    | none => exact Or.inl rfl
    | some p =>
      rw [(RuleScope.decision_eq_some hdecision).1]
      exact Or.inr ⟨not_lt.mp hdue, rfl⟩

/-- The credits of a rule, period by period. -/
theorem ruleCredits_eq_flatMap {company : Company} {employee : Employee}
    (hcompany : dir.company companyId = .ok company)
    (hemployee : dir.employee a.employeeId = .ok employee)
    (hscope : ruleScope companyId asOf employee a v rule = some s)
    (h : rulePostings cat dir companyId asOf a v rule = .ok ps) :
    ∃ periods, iterPeriods s.first s.through s.frequency (some company.payPeriodAnchor)
        = .ok periods ∧
      ruleCredits cat dir companyId asOf a v rule
        = periods.flatMap fun period => planned (s.periodPlan cat period) := by
  have hcredits : ruleCredits cat dir companyId asOf a v rule = ps := by
    simp only [ruleCredits]
    rw [h]
    rfl
  rw [rulePostings_eq hcompany hemployee, hscope] at h
  obtain ⟨periods, hperiods, h⟩ := Except.bind_eq_ok.mp h
  exact ⟨periods, hperiods, hcredits.trans (planFor_eq_flatMap h)⟩

/-- Every credit of a rule has its reasons. -/
theorem scheduled_of_mem_ruleCredits (ha : a ∈ cat.assignmentsBegun companyId asOf)
    (hv : v ∈ cat.versionsOf a.policyId) (hrule : rule ∈ v.rules)
    (hp : p ∈ ruleCredits cat dir companyId asOf a v rule) :
    ∃ s period, Scheduled cat dir companyId asOf s period p ∧ s.assignment = a ∧ s.version = v ∧
      s.rule = rule := by
  simp only [ruleCredits] at hp
  cases h : rulePostings cat dir companyId asOf a v rule with
  | error e =>
    rw [h] at hp
    cases hp
  | ok ps =>
    rw [h] at hp
    obtain ⟨company, hcompany, h⟩ := Except.bind_eq_ok.mp h
    obtain ⟨employee, hemployee, h⟩ := Except.bind_eq_ok.mp h
    exact scheduled_of_mem_rulePlan hcompany ha hemployee hv hrule h hp

/-! ## Different keys

No two postings of a run have the same source: assignments, versions and rules
are listed once, and a rule reaches a period once. -/

/-- The credits of a rule are for different periods. -/
theorem ruleCredits_keys (dir : Directory) (companyId : String) (asOf : Date)
    (a : PolicyAssignment) (v : PolicyVersion) (rule : AccrualRule) :
    (ruleCredits cat dir companyId asOf a v rule).Pairwise fun p q =>
      p.credit.key ≠ q.credit.key := by
  cases h : rulePostings cat dir companyId asOf a v rule with
  | error e =>
    simp only [ruleCredits]
    rw [h]
    exact List.Pairwise.nil
  | ok ps =>
    obtain ⟨company, hcompany, hplan⟩ := Except.bind_eq_ok.mp h
    obtain ⟨employee, hemployee, -⟩ := Except.bind_eq_ok.mp hplan
    cases hscope : ruleScope companyId asOf employee a v rule with
    | none =>
      simp only [ruleCredits]
      rw [rulePostings_eq hcompany hemployee, hscope]
      exact List.Pairwise.nil
    | some s =>
      obtain ⟨periods, hperiods, hcredits⟩ := ruleCredits_eq_flatMap hcompany hemployee hscope h
      rw [hcredits]
      refine List.pairwise_flatMap.mpr ⟨fun period _ => ?_, ?_⟩
      · rcases planned_periodPlan cat s period with hnone | ⟨-, hsome⟩
        · rw [hnone]
          exact List.Pairwise.nil
        · rw [hsome]
          exact List.pairwise_singleton ..
      · refine (List.pairwise_map.mp (nodup_iterPeriods hperiods)).imp ?_
        intro period period' hne p hp q hq hkey
        -- a key names the start of its period
        have hstart {period : Period} {p : Posting}
            (hp : p ∈ planned (s.periodPlan cat period)) : p = s.posting period := by
          rcases planned_periodPlan cat s period with hnone | ⟨-, hsome⟩
          · rw [hnone] at hp
            cases hp
          · rw [hsome] at hp
            exact List.mem_singleton.mp hp
        rw [hstart hp, hstart hq] at hkey
        exact hne (scheduledSource_inj (Prod.mk.inj hkey).2).2.2

theorem nodup_ruleCredits (dir : Directory) (companyId : String) (asOf : Date)
    (a : PolicyAssignment) (v : PolicyVersion) (rule : AccrualRule) :
    (ruleCredits cat dir companyId asOf a v rule).Nodup :=
  (ruleCredits_keys dir companyId asOf a v rule).imp fun {_ _} hne heq =>
    hne (congrArg (fun p : Posting => p.credit.key) heq)

/-- The key of a credit names the assignment and the rule. -/
theorem loop_eq_of_key {a' : PolicyAssignment} {v' : PolicyVersion} {rule' : AccrualRule}
    (ha : a ∈ cat.assignmentsBegun companyId asOf) (hv : v ∈ cat.versionsOf a.policyId)
    (hrule : rule ∈ v.rules) (hp : p ∈ ruleCredits cat dir companyId asOf a v rule)
    (ha' : a' ∈ cat.assignmentsBegun companyId asOf) (hv' : v' ∈ cat.versionsOf a'.policyId)
    (hrule' : rule' ∈ v'.rules) (hp' : p' ∈ ruleCredits cat dir companyId asOf a' v' rule')
    (hkey : p.credit.key = p'.credit.key) : a = a' ∧ v = v' ∧ rule = rule' := by
  obtain ⟨s, period, hs, rfl, rfl, rfl⟩ := scheduled_of_mem_ruleCredits ha hv hrule hp
  obtain ⟨s', period', hs', rfl, rfl, rfl⟩ := scheduled_of_mem_ruleCredits ha' hv' hrule' hp'
  rw [hs.posting_eq, hs'.posting_eq] at hkey
  obtain ⟨hassignment, hid, -⟩ := scheduledSource_inj (Prod.mk.inj hkey).2
  have hstored := (Catalog.mem_versionsOf.mp hv).1
  have hstored' := (Catalog.mem_versionsOf.mp hv').1
  exact ⟨Catalog.assignment_eq_of_id (List.mem_filter.mp ha).1 (List.mem_filter.mp ha').1
      hassignment,
    Catalog.version_eq_of_rule hstored hstored' hrule hrule' hid,
    Catalog.rule_eq_of_id hstored hstored' hrule hrule' hid⟩

/-- Nor does a version, a rule or an assignment. -/
theorem nodup_versionsOf (cat : Catalog) (policyId : Uuid) : (cat.versionsOf policyId).Nodup := by
  have hrows : cat.versions.rows.Nodup := List.Nodup.of_map _ cat.versions.holds.id_unique
  exact (List.perm_insertionSort _ _).nodup_iff.mpr (hrows.filter _)

theorem nodup_rules {cat : Catalog} {v : PolicyVersion} (hv : v ∈ cat.versions.rows) :
    v.rules.Nodup :=
  (List.nodup_flatMap.mp (List.Nodup.of_map _ cat.versions.holds.rule_unique)).1 v hv

theorem nodup_assignmentsBegun (cat : Catalog) (companyId : String) (asOf : Date) :
    (cat.assignmentsBegun companyId asOf).Nodup :=
  (List.Nodup.of_map _ cat.assignments.holds.id_unique).filter _

/-- The credits of a run have different keys. -/
theorem credits_keys (o : RowOrder cat) (dir : Directory) (companyId : String) (asOf : Date) :
    ((credits o dir companyId asOf).map fun p => p.credit.key).Nodup := by
  suffices h : (Turns.nest (fun a => cat.versionsOf a.policyId)
      (ruleCredits cat dir companyId asOf) (cat.assignmentsBegun companyId asOf)
      (·.rules)).Pairwise fun p q => p.credit.key ≠ q.credit.key from
    ((credits_perm o (.stored cat)).map _).nodup_iff.mpr (List.pairwise_map.mpr h)
  refine List.pairwise_flatMap.mpr ⟨fun a ha => List.pairwise_flatMap.mpr ⟨fun v hv =>
    List.pairwise_flatMap.mpr ⟨fun rule _ => ruleCredits_keys dir companyId asOf a v rule, ?_⟩,
      ?_⟩, ?_⟩
  · -- another rule of the version
    refine (nodup_rules (Catalog.mem_versionsOf.mp hv).1).imp_of_mem ?_
    intro rule rule' hrule hrule' hne p hp q hq hkey
    exact hne (loop_eq_of_key ha hv hrule hp ha hv hrule' hq hkey).2.2
  · -- another version of the policy
    refine (nodup_versionsOf cat a.policyId).imp_of_mem ?_
    intro v v' hv hv' hne p hp q hq hkey
    obtain ⟨rule, hrule, hp⟩ := List.mem_flatMap.mp hp
    obtain ⟨rule', hrule', hq⟩ := List.mem_flatMap.mp hq
    exact hne (loop_eq_of_key ha hv hrule hp ha hv' hrule' hq hkey).2.1
  · -- another assignment
    refine (nodup_assignmentsBegun cat companyId asOf).imp_of_mem ?_
    intro a a' ha ha' hne p hp q hq hkey
    obtain ⟨v, hv, rule, hrule, hp⟩ := Turns.mem_round.mp hp
    obtain ⟨v', hv', rule', hrule', hq⟩ := Turns.mem_round.mp hq
    exact hne (loop_eq_of_key ha hv hrule hp ha' hv' hrule' hq hkey).1

/-! ## Different dates

Two postings of one version to one account are dated differently, unless they
are one: a period has one credit date. -/

/-- The assignment covers the date of the credit. -/
theorem Scheduled.covers (h : Scheduled cat dir companyId asOf s period p) :
    s.assignment.Covers p.effectiveDate := by
  obtain ⟨heligible, hthrough, -⟩ := h.scope_eq
  have hdue := h.due
  rw [h.posting_eq]
  constructor
  · have hfrom : s.assignment.effectiveFrom ≤ s.eligibleFrom := by
      rw [heligible]
      exact le_max_right _ _
    exact le_trans hfrom (le_trans (le_max_left _ _) (le_max_right _ _))
  · intro last hlast
    have hlast : s.assignment.effectiveTo = some last := hlast
    rw [hthrough, hlast] at hdue
    exact le_trans hdue (min_le_right _ _)

theorem Scheduled.date_le (h : Scheduled cat dir companyId asOf s period p) :
    p.effectiveDate ≤ asOf := by
  have hdue := h.due
  rw [h.scope_eq.2.1] at hdue
  rw [h.posting_eq]
  exact le_trans hdue (min_le_left _ _)

/-- One credit of a run is dated a given day in an account: one assignment covers
the day, one version is in force, its tiers share a calendar, and one of them
is the employee's. -/
theorem Scheduled.posting_eq_of_date (h : Scheduled cat dir companyId asOf s period p)
    (h' : Scheduled cat dir companyId asOf s' period' p') (hfiled : cat.Filed)
    (htiered : ∀ v ∈ cat.versions.rows, v.Tiered) (haccount : p.account = p'.account)
    (hdate : p.effectiveDate = p'.effectiveDate) : p = p' := by
  have hposting := h.posting_eq
  have hposting' := h'.posting_eq
  -- the assignment
  have hpair : Account.mk s.assignment.employeeId s.assignment.policyId
      = Account.mk s'.assignment.employeeId s'.assignment.policyId := by
    rw [hposting, hposting'] at haccount
    exact haccount
  obtain ⟨hemployeeId, hpolicyId⟩ := Account.mk.inj hpair
  have hassignment : s.assignment = s'.assignment :=
    hfiled.apart (List.mem_filter.mp h.begun).1 (List.mem_filter.mp h'.begun).1 hemployeeId
      hpolicyId h.covers (hdate ▸ h'.covers)
  -- the version
  have hday : s.effective period = s'.effective period' := by
    rw [hposting, hposting'] at hdate
    exact hdate
  have hversion : s.version = s'.version := by
    have hforce := h.inForce
    rw [hassignment, hday, h'.inForce] at hforce
    exact (Option.some.inj hforce).symm
  -- the period
  have hstored := (Catalog.mem_versionsOf.mp h.stored).1
  have hfrequency : s.frequency = s'.frequency := by
    have hsame := ((htiered _ hstored).uniform _ h.listed _ (hversion ▸ h'.listed)).1
    rw [h.scope_eq.2.2.2, h'.scope_eq.2.2.2] at hsame
    exact Option.some.inj hsame
  obtain ⟨company, hcompany, hperiod⟩ := h.containing_date
  obtain ⟨company', hcompany', hperiod'⟩ := h'.containing_date
  obtain rfl : company = company' := Except.ok.inj (hcompany.symm.trans hcompany')
  rw [hdate, hfrequency, hperiod'] at hperiod
  obtain rfl : period' = period := Except.ok.inj hperiod
  -- and the tier
  have hrule : s.rule = s'.rule := by
    have hselected := h.selected
    rw [hversion, ← h.employee_eq h' hassignment.symm, h'.selected] at hselected
    exact (Except.ok.inj hselected).symm
  rw [hposting, hposting', h.scope_unique h' hassignment hversion hrule]

/-! ## The credits of an earlier run

The run of an earlier date makes the credits that are due by it, in the same
order. -/

/-- Rounds that yield nothing can be left out. -/
theorem flatMap_filter_of_nil {α β : Type} {l : List α} {keep : α → Bool} {f : α → List β}
    (h : ∀ x ∈ l, ¬ keep x = true → f x = []) : (l.filter keep).flatMap f = l.flatMap f := by
  induction l with
  | nil => rfl
  | cons x l ih =>
    have hrest := ih fun y hy => h y (List.mem_cons_of_mem _ hy)
    rw [List.filter_cons, List.flatMap_cons]
    split
    · rw [List.flatMap_cons, hrest]
    · next hdrop => rw [h x (List.mem_cons_self ..) hdrop, hrest, List.nil_append]

/-- An earlier run credits a period if it is due by then. -/
theorem planned_at (hthrough : s.through = min asOf (s.assignment.effectiveTo.getD asOf))
    (hle : day ≤ asOf) (period : Period) :
    planned ((s.at day).periodPlan cat period)
      = (planned (s.periodPlan cat period)).filter fun p => p.effectiveDate ≤ day := by
  by_cases hday : (s.posting period).effectiveDate ≤ day
  · have heffective : s.effective period ≤ day := hday
    -- what is due by the day is reached by both runs
    have hreach : (s.at day).through < (s.at day).effective period
        ↔ s.through < s.effective period := by
      show min day (s.assignment.effectiveTo.getD day) < s.effective period ↔ _
      rw [hthrough]
      cases s.assignment.effectiveTo with
      | none =>
        simp only [Option.getD_none, min_self]
        exact iff_of_false (not_lt.mpr heffective) (not_lt.mpr (le_trans heffective hle))
      | some last =>
        simp only [Option.getD_some, min_lt_iff]
        rw [or_iff_right (not_lt.mpr heffective),
          or_iff_right (not_lt.mpr (le_trans heffective hle))]
    have hplan : (s.at day).periodPlan cat period = s.periodPlan cat period := by
      simp only [RuleScope.periodPlan]
      simp only [hreach]
      rfl
    rw [hplan]
    rcases planned_periodPlan cat s period with hnone | ⟨-, hsome⟩
    · rw [hnone]
      rfl
    · rw [hsome, List.filter_cons, if_pos (decide_eq_true hday)]
      rfl
  · have hlate : (s.at day).through < (s.at day).effective period :=
      lt_of_le_of_lt (min_le_left _ _) (not_le.mp hday)
    have hnone : planned ((s.at day).periodPlan cat period) = [] := by
      simp only [RuleScope.periodPlan]
      rw [if_pos hlate]
      rfl
    rw [hnone]
    rcases planned_periodPlan cat s period with hnone' | ⟨-, hsome⟩
    · rw [hnone']
      rfl
    · rw [hsome, List.filter_cons, if_neg fun h => hday (of_decide_eq_true h)]
      rfl

/-- An earlier run credits what a later one dates by then, rule by rule. -/
theorem ruleCredits_filter (h : rulePostings cat dir companyId asOf a v rule = .ok ps)
    (hle : day ≤ asOf) :
    ruleCredits cat dir companyId day a v rule
      = (ruleCredits cat dir companyId asOf a v rule).filter fun p => p.effectiveDate ≤ day := by
  obtain ⟨company, hcompany, hplan⟩ := Except.bind_eq_ok.mp h
  obtain ⟨employee, hemployee, hplan⟩ := Except.bind_eq_ok.mp hplan
  obtain ⟨qs, hearlier⟩ := rulePlan_mono hplan hle
  have hearlier : rulePostings cat dir companyId day a v rule = .ok qs :=
    (rulePostings_eq hcompany hemployee).trans hearlier
  cases hscope : ruleScope companyId asOf employee a v rule with
  | none =>
    -- whether a rule runs does not depend on the date
    have hearlier : ruleScope companyId day employee a v rule = none := by
      cases hday : ruleScope companyId day employee a v rule with
      | none => rfl
      | some s =>
        rw [ruleScope_at hday asOf] at hscope
        cases hscope
    simp only [ruleCredits]
    rw [rulePostings_eq hcompany hemployee, rulePostings_eq hcompany hemployee, hscope, hearlier]
    rfl
  | some s =>
    obtain ⟨periods, hperiods, hcredits⟩ := ruleCredits_eq_flatMap hcompany hemployee hscope h
    obtain ⟨periods', hperiods', hcredits'⟩ :=
      ruleCredits_eq_flatMap hcompany hemployee (ruleScope_at hscope day) hearlier
    obtain ⟨-, -, hs⟩ := ruleScope_eq_some hscope
    have hthrough : s.through = min asOf (s.assignment.effectiveTo.getD asOf) := by rw [hs]
    -- the earlier run reaches no further, so its periods are among those of the later one
    have hreach : (s.at day).through ≤ s.through := by
      rw [hthrough]
      exact through_mono hle
    have hsome := hperiods'.symm.trans (iterPeriods_filter hperiods hreach)
    rw [hcredits, hcredits', Except.ok.inj hsome, List.filter_flatMap,
      flatMap_filter_of_nil fun period hperiod hlate => ?_]
    · exact List.flatMap_congr fun period _ => planned_at hthrough hle period
    · -- a period that starts after the reach of the run is not due
      obtain ⟨_, hperiods₀, hspec⟩ :=
        mem_iterPeriods s.first s.through s.frequency company.payPeriodAnchor
      rw [hperiods] at hperiods₀
      cases hperiods₀
      have hspan : period.start ≤ period.finish := by
        rw [((hspec period).mp hperiod).1]
        exact start_le_finish ..
      have hundue : (s.at day).through < (s.at day).effective period :=
        lt_of_lt_of_le (not_le.mp fun h => hlate (decide_eq_true h))
          (Scheduled.start_le_effective (s.at day) hspan)
      rcases planned_periodPlan cat (s.at day) period with hnone | ⟨hdue, -⟩
      · exact hnone
      · exact absurd hundue (not_lt.mpr hdue)

/-- An earlier run credits what a later one dates by then. -/
theorem credits_filter (o : RowOrder cat) (h : scheduledPlan cat dir companyId asOf = .ok ps)
    (hle : day ≤ asOf) :
    credits o dir companyId day
      = (credits o dir companyId asOf).filter fun p => p.effectiveDate ≤ day := by
  obtain ⟨-, hrounds⟩ := exists_scheduledPlan_iff.mp ⟨ps, h⟩
  have hbegun : (cat.inOrder o).assignmentsBegun companyId day
      = ((cat.inOrder o).assignmentsBegun companyId asOf).filter fun a =>
        a.effectiveFrom ≤ day := by
    simp only [Catalog.assignmentsBegun]
    rw [List.filter_filter]
    refine List.filter_congr fun a _ => ?_
    rw [← Bool.decide_and]
    exact decide_eq_decide.mpr
      ⟨fun ha => ⟨ha.2, ha.1, le_trans ha.2 hle⟩, fun ha => ⟨ha.2.1, ha.1⟩⟩
  have hround : ∀ a ∈ cat.assignmentsBegun companyId asOf,
      Turns.round (fun a => cat.versionsOf a.policyId) (ruleCredits cat dir companyId day) o.rules a
        = (Turns.round (fun a => cat.versionsOf a.policyId) (ruleCredits cat dir companyId asOf)
            o.rules a).filter fun p => p.effectiveDate ≤ day := by
    intro a ha
    simp only [Turns.round]
    rw [List.filter_flatMap]
    refine List.flatMap_congr fun v hv => ?_
    simp only [Turns.stage]
    rw [List.filter_flatMap]
    refine List.flatMap_congr fun rule hrule => ?_
    obtain ⟨qs, hqs⟩ := (hrounds a ha).2 v hv rule ((o.rules_perm v).subset hrule)
    exact ruleCredits_filter hqs hle
  have hmem := (Catalog.assignmentsBegun_inOrder_perm o companyId asOf).subset
  simp only [credits, Turns.nest]
  rw [List.filter_flatMap, hbegun]
  refine Eq.trans (List.flatMap_congr fun a ha => hround a (hmem (List.mem_of_mem_filter ha)))
    (flatMap_filter_of_nil fun a ha hlate => List.filter_eq_nil_iff.mpr fun p hp hdate => ?_)
  -- an assignment that has not begun by then credits nothing dated by then
  obtain ⟨v, hv, rule, hrule, hp⟩ := Turns.mem_round.mp hp
  obtain ⟨s, period, hs, rfl, -⟩ :=
    scheduled_of_mem_ruleCredits (hmem ha) hv ((o.rules_perm v).subset hrule) hp
  exact hlate (decide_eq_true (le_trans hs.covers.1 (of_decide_eq_true hdate)))

/-- Every credit of a run has its reasons. -/
theorem scheduled_of_mem_credits {o : RowOrder cat} (hp : p ∈ credits o dir companyId asOf) :
    ∃ s period, Scheduled cat dir companyId asOf s period p := by
  obtain ⟨a, ha, v, hv, rule, hrule, hp⟩ := Turns.mem_nest.mp hp
  obtain ⟨s, period, hs, -⟩ := scheduled_of_mem_ruleCredits
    ((Catalog.assignmentsBegun_inOrder_perm o companyId asOf).subset ha) hv
    ((o.rules_perm v).subset hrule) hp
  exact ⟨s, period, hs⟩

end AccrualService

end TimeOff
