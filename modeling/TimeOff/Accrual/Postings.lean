import TimeOff.Requests.Lifecycle

/-!
# The postings of an operation

What a successful operation does to the ledger: an accrual job makes the
postings of its plan, and everything else posts entries of other source types
(`LedgerEffect`). A condition on postings is asked of each on the ledger it
finds (`Db.Each`), because a job's later postings meet the earlier ones.

Results about ledgers are proved by cases on one of two inversions.
`LedgerEffect` divides the operations by what they may do to a balance; it has
four cases, and a condition for a run is asked of them by `Op.PostsWithin`.
`Posted` follows a single entry back to its reason: an entry after an operation
was there before, or is a posting's credit or loss, a leg of a request or a
closing, and then the constructor has the plan, the place in it and the ledger
that was met there (`Effect.posted`).

`LossesCredited` is what the source keys of the jobs are for: the key of a cap
loss is never taken before the key of its credit. It holds because the two are
entered together and no other key ends as that of a loss
(`ne_append_forfeiture`).
-/

namespace TimeOff

open Gregorian AccrualService

/-- Posted by an accrual job. -/
def SourceType.IsAccrual (s : SourceType) : Prop := s = .SCHEDULED_ACCRUAL ∨ s = .PAYROLL_ACCRUAL

instance (s : SourceType) : Decidable s.IsAccrual := inferInstanceAs (Decidable (_ ∨ _))

/-- The postings an operation plans: none, unless it is an accrual job. -/
def Op.postings (dir : Directory) (c : Catalog) : Op → Except Error (List Posting)
  | .runScheduled companyId asOf => scheduledPlan c dir companyId asOf
  | .onPayrollProcessed companyId payrollRunId periodEnd minutesByEmployee =>
    payrollPlan c dir companyId payrollRunId periodEnd minutesByEmployee
  | .catalog _ | .submit .. | .decide .. | .cancel .. | .rollover .. => .ok []

/-- No minutes worked are negative. -/
def Op.MinutesNonneg : Op → Prop
  | .onPayrollProcessed _ _ _ minutesByEmployee => ∀ entry ∈ minutesByEmployee.rows, 0 ≤ entry.2
  | _ => True

instance (op : Op) : Decidable op.MinutesNonneg :=
  match op with
  | .onPayrollProcessed _ _ _ minutesByEmployee =>
    inferInstanceAs (Decidable (∀ entry ∈ minutesByEmployee.rows, 0 ≤ entry.2))
  | .catalog _ | .submit .. | .decide .. | .cancel .. | .runScheduled .. | .rollover .. =>
    isTrue trivial

/-- The operation changes the catalog. -/
def Op.Edits : Op → Prop
  | .catalog _ => True
  | _ => False

instance (op : Op) : Decidable op.Edits :=
  match op with
  | .catalog _ => isTrue trivial
  | .submit .. | .decide .. | .cancel .. | .runScheduled .. | .onPayrollProcessed ..
  | .rollover .. => isFalse id

/-- What holds of every posting of a job. -/
structure Posting.Issued (c : Catalog) (p : Posting) : Prop where
  sourceType : p.sourceType.IsAccrual
  plain : ∀ s, p.sourceId ≠ s ++ ":forfeiture"
  version : ∃ v ∈ c.versions.rows, v.policyId = p.policyId ∧
    v.maxBalanceMinutes = p.maxBalanceMinutes

/-- A key ends in a part without separator, so a part of other characters than
the suffix of cap losses tells it apart from their keys. -/
theorem ne_append_forfeiture {a b s : String} (hsep : ':' ∉ b.toList) (hne : b ≠ "forfeiture") :
    a ++ ":" ++ b ≠ s ++ ":forfeiture" := by
  intro h
  have hsplit : a ++ String.singleton ':' ++ b = s ++ String.singleton ':' ++ "forfeiture" := by
    have hassoc : s ++ String.singleton ':' ++ "forfeiture" = s ++ ":forfeiture" :=
      String.append_assoc
    rw [hassoc]
    exact h
  exact hne (Text.append_sep_inj' hsep (by decide) hsplit).2

/-- Dates and keys are such parts. -/
theorem isoformat_ne_forfeiture (d : Date) : isoformat d ≠ "forfeiture" := by
  intro h
  have hmem := dash_mem_isoformat d
  rw [h] at hmem
  revert hmem
  decide

theorem Uuid.text_ne_forfeiture (a : Uuid) : a.text ≠ "forfeiture" := by
  intro h
  have hlength := a.form.1
  rw [h] at hlength
  revert hlength
  decide

section postings

variable {dir : Directory} {c : Catalog} {op : Op} {ps : List Posting} {p : Posting}

/-- The postings of both jobs are issued. -/
theorem AccrualService.Scheduled.issued {companyId : String} {asOf : Date} {s : RuleScope}
    {period : Period} (h : Scheduled c dir companyId asOf s period p) : p.Issued c := by
  obtain ⟨hv, hpolicy⟩ := Catalog.mem_versionsOf.mp h.stored
  rw [h.posting_eq]
  exact ⟨Or.inl rfl, fun _ => ne_append_forfeiture (colon_notMem_isoformat _)
    (isoformat_ne_forfeiture _), s.version, hv, hpolicy, rfl⟩

/-- So is every posting of an operation. -/
theorem issued_of_postings (h : op.postings dir c = .ok ps) (hp : p ∈ ps) : p.Issued c := by
  cases op with
  | runScheduled companyId asOf =>
    obtain ⟨s, period, hs⟩ := mem_scheduledPlan h hp
    exact hs.issued
  | onPayrollProcessed companyId payrollRunId periodEnd minutesByEmployee =>
    obtain ⟨entry, _, employee, assignment, version, rule, hpaid⟩ := mem_payrollPlan h hp
    obtain ⟨hv, hpolicy⟩ := Catalog.versionEffectiveOn_spec hpaid.inForce
    rw [(payrollDecision_eq_some hpaid.decision).2.2.2]
    exact ⟨Or.inr rfl, fun _ => ne_append_forfeiture rule.id.colon_notMem
      rule.id.text_ne_forfeiture, version, hv, hpolicy.1, rfl⟩
  | catalog | submit | decide | cancel | rollover =>
    cases h
    cases hp

/-- Valid rates and minutes credit nothing below zero. -/
theorem amount_nonneg_of_postings (h : op.postings dir c = .ok ps) (hp : p ∈ ps)
    (hvalid : ∀ v ∈ c.versions.rows, v.Valid) (hminutes : op.MinutesNonneg) : 0 ≤ p.amount := by
  cases op with
  | runScheduled companyId asOf =>
    obtain ⟨s, period, hs⟩ := mem_scheduledPlan h hp
    exact hs.amount_nonneg hvalid
  | onPayrollProcessed companyId payrollRunId periodEnd minutesByEmployee =>
    obtain ⟨entry, hentry, _, _, _, _, hpaid⟩ := mem_payrollPlan h hp
    exact hpaid.amount_nonneg hvalid (hminutes entry hentry)
  | catalog | submit | decide | cancel | rollover =>
    cases h
    cases hp

/-- Scheduled postings come from the scheduled job. -/
theorem scheduled_of_postings (h : op.postings dir c = .ok ps) (hp : p ∈ ps)
    (htype : p.sourceType = .SCHEDULED_ACCRUAL) :
    ∃ companyId asOf s period, op = .runScheduled companyId asOf ∧
      Scheduled c dir companyId asOf s period p := by
  cases op with
  | runScheduled companyId asOf =>
    obtain ⟨s, period, hs⟩ := mem_scheduledPlan h hp
    exact ⟨companyId, asOf, s, period, rfl, hs⟩
  | onPayrollProcessed companyId payrollRunId periodEnd minutesByEmployee =>
    obtain ⟨entry, _, employee, assignment, version, rule, hpaid⟩ := mem_payrollPlan h hp
    rw [(payrollDecision_eq_some hpaid.decision).2.2.2] at htype
    cases htype
  | catalog | submit | decide | cancel | rollover =>
    cases h
    cases hp

end postings

/-! ## Conditions on postings

A condition on every posting of a job, each on the ledger that the earlier ones
have left. -/

/-- Every posting meets a condition on the ledger it finds. -/
def Db.Each (ok : Ledger → Posting → Prop) : List Posting → Db → Prop
  | [], _ => True
  | p :: ps, db => ok db.ledger p ∧ Each ok ps (db.postAccrual p)

/-- It can be decided along the list, one posting after the other. -/
def Db.decidableEach (ok : Ledger → Posting → Prop) [∀ ledger p, Decidable (ok ledger p)] :
    (ps : List Posting) → (db : Db) → Decidable (Db.Each ok ps db)
  | [], _ => isTrue trivial
  | _ :: ps, db => @instDecidableAnd _ _ _ (decidableEach ok ps (db.postAccrual _))

instance (ok : Ledger → Posting → Prop) [∀ ledger p, Decidable (ok ledger p)] (ps : List Posting)
    (db : Db) : Decidable (Db.Each ok ps db) := Db.decidableEach ok ps db

/-- What postings under a condition preserve holds when all are made. -/
theorem Db.Each.invariant {ok : Ledger → Posting → Prop} {I : Db → Prop} {ps : List Posting}
    {db : Db} (h : Db.Each ok ps db) (hinv : I db)
    (hstep : ∀ p ∈ ps, ∀ db, I db → ok db.ledger p → I (db.postAccrual p)) :
    I (db.postAccruals ps) := by
  induction ps generalizing db with
  | nil => exact hinv
  | cons p ps ih =>
    obtain ⟨hp, hrest⟩ := h
    have hinv' := hstep p (List.mem_cons_self ..) db hinv hp
    exact ih hrest hinv' fun q hq => hstep q (List.mem_cons_of_mem _ hq)

/-- No condition is met by all. -/
theorem Db.each_true (ps : List Posting) (db : Db) : Db.Each (fun _ _ => True) ps db := by
  induction ps generalizing db with
  | nil => trivial
  | cons p ps ih => exact ⟨trivial, ih _⟩

/-- The operation's postings, if it makes any, meet a condition. -/
def Op.PostsWithin (ok : Ledger → Posting → Prop) (dir : Directory) (db : Db) (op : Op) : Prop :=
  (op.postings dir db.catalog).Ensures fun ps => db.Each ok ps

instance (ok : Ledger → Posting → Prop) [∀ ledger p, Decidable (ok ledger p)] (dir : Directory)
    (db : Db) (op : Op) : Decidable (op.PostsWithin ok dir db) :=
  inferInstanceAs (Decidable (Except.Ensures _ _))

/-- The condition, for a plan that is known. -/
theorem Op.PostsWithin.each {ok : Ledger → Posting → Prop} {dir : Directory} {db : Db} {op : Op}
    {ps : List Posting} (h : op.PostsWithin ok dir db)
    (hplan : op.postings dir db.catalog = .ok ps) : db.Each ok ps :=
  Except.ensures_iff.mp h ps hplan

/-! ## What an operation does to the ledger

Either it makes the postings of a plan, or it inserts entries that are of no
accrual job. Invariants of the ledger have these two cases. -/

/-- The ledger after an operation. -/
inductive LedgerEffect (dir : Directory) (db : Db) (op : Op) (db' : Db) : Prop
  | accrual (ps : List Posting) (hplan : op.postings dir db.catalog = .ok ps)
      (hledger : db'.ledger = (db.postAccruals ps).ledger)
  | other (es : List LedgerEntry) (hes : ∀ e ∈ es, ¬ e.sourceType.IsAccrual)
      (hledger : db'.ledger = (db.posts es).ledger)

/-- Every operation has one of these effects. -/
theorem Effect.onLedger {dir : Directory} {db db' : Db} {op : Op} (h : Effect dir db op db') :
    LedgerEffect dir db op db' := by
  cases h with
  | catalog => exact .accrual [] rfl rfl
  | submit => exact .accrual [] rfl Db.afterSubmit_ledger
  | @decide actor id approve note r v =>
    -- requests post under sources of their own, if they post at all
    by_cases hdebits : approve = true ∧ v.kind ≠ .UNLIMITED
    · refine .other r.debits (fun e he => ?_) ?_
      · obtain ⟨leg, -, rfl⟩ := List.mem_map.mp he
        show ¬ (SourceType.REQUEST).IsAccrual
        decide
      · rw [Db.afterDecide_ledger]
        exact congrArg Db.ledger (if_pos hdebits)
    · refine .accrual [] rfl ?_
      rw [Db.afterDecide_ledger]
      exact congrArg Db.ledger (if_neg hdebits)
  | @cancel actor id today r =>
    by_cases hpending : r.status = .PENDING
    · refine .accrual [] rfl ?_
      rw [Db.afterCancel_ledger, if_pos hpending]
      rfl
    · refine .other r.reversals (fun e he => ?_) ?_
      · obtain ⟨leg, -, rfl⟩ := List.mem_map.mp he
        show ¬ (SourceType.REQUEST_CANCELLATION).IsAccrual
        decide
      · rw [Db.afterCancel_ledger, if_neg hpending]
  | runScheduled hplan => exact .accrual _ hplan rfl
  | onPayrollProcessed hplan => exact .accrual _ hplan rfl
  | @rollover companyId asOf outcome =>
    obtain ⟨es, heq, hes⟩ := Db.closeAccounts_eq_posts companyId (RolloverService.closingDay asOf)
      (db.catalog.assignmentsCovering companyId none (RolloverService.closingDay asOf)) db
    rw [heq]
    refine .other es (fun e he => ?_) rfl
    obtain ⟨assignment, -, version, balance, -, hclosing⟩ := hes e he
    rw [RolloverService.sourceType_of_closingEntries hclosing]
    decide

/-- An entry after the postings of a job was there before, or is the credit or the
cap loss of one of them, on the ledger that the earlier ones left. -/
theorem Db.mem_postAccruals {db : Db} {ps : List Posting} {e : LedgerEntry}
    (h : e ∈ (db.postAccruals ps).ledger.rows) :
    e ∈ db.ledger.rows ∨ ∃ done p rest, ps = done ++ p :: rest ∧
      e ∈ p.credit :: (p.loss ((db.postAccruals done).ledger.balance p.account
        (some p.effectiveDate))).toList := by
  induction ps generalizing db with
  | nil => exact Or.inl h
  | cons q qs ih =>
    rw [postAccruals_cons] at h
    rcases ih h with hfirst | ⟨done, p, rest, rfl, he⟩
    · rw [postAccrual_eq_posts] at hfirst
      exact (mem_posts hfirst).imp_right fun he => ⟨[], q, qs, rfl, he⟩
    · exact Or.inr ⟨q :: done, p, rest, rfl, he⟩

/-- An entry after a rollover was there before, or closes one of the accounts, with
the balance that the earlier closings left. -/
theorem Db.mem_closeAccounts {db : Db} {companyId : String} {day : Date}
    {xs : List PolicyAssignment} {e : LedgerEntry}
    (h : e ∈ (db.closeAccounts companyId day xs).ledger.rows) :
    e ∈ db.ledger.rows ∨ ∃ done x rest v, xs = done ++ x :: rest ∧
      db.catalog.versionEffectiveOn x.policyId day = some v ∧ v.kind ≠ .UNLIMITED ∧
      e ∈ RolloverService.closingEntries companyId x v day
        ((db.closeAccounts companyId day done).ledger.balance ⟨x.employeeId, x.policyId⟩
          (some day)) := by
  induction xs generalizing db with
  | nil => exact Or.inl h
  | cons y ys ih =>
    rw [closeAccounts_cons] at h
    rcases ih h with hfirst | ⟨done, x, rest, v, rfl, hv, hkind, he⟩
    · simp only [closeAccount] at hfirst
      split at hfirst
      · exact Or.inl hfirst
      next v hv =>
      split at hfirst
      · exact Or.inl hfirst
      next hkind =>
      exact (mem_posts hfirst).imp_right fun he => ⟨[], y, ys, v, rfl, hv, hkind, he⟩
    · rw [closeAccount_catalog] at hv
      exact Or.inr ⟨y :: done, x, rest, v, rfl, hv, hkind, he⟩

/-- Where a ledger entry comes from: a posting of a job, a leg of a request that
is approved or cancelled, or a closing; jobs post on the ledger that their
earlier entries left. -/
inductive Posted (dir : Directory) (db : Db) (op : Op) (e : LedgerEntry) : Prop
  | accrual {done rest : List Posting} {p : Posting}
      (hplan : op.postings dir db.catalog = .ok (done ++ p :: rest))
      (he : e ∈ p.credit :: (p.loss ((db.postAccruals done).ledger.balance p.account
        (some p.effectiveDate))).toList)
  | debit {actor : Employee} {note : Option String} {r : TimeOffRequest}
      (hop : op = .decide actor r.id true note) (hr : r ∈ db.requests.rows) (he : e ∈ r.debits)
  | reversal {actor : Employee} {today : Date} {r : TimeOffRequest}
      (hop : op = .cancel actor r.id today) (hr : r ∈ db.requests.rows) (he : e ∈ r.reversals)
  | closing {companyId : String} {asOf : Date} {done rest : List PolicyAssignment}
      {x : PolicyAssignment} {v : PolicyVersion} (hop : op = .rollover companyId asOf)
      (hx : db.catalog.assignmentsCovering companyId none (RolloverService.closingDay asOf)
        = done ++ x :: rest)
      (hv : db.catalog.versionEffectiveOn x.policyId (RolloverService.closingDay asOf) = some v)
      (hkind : v.kind ≠ .UNLIMITED)
      (he : e ∈ RolloverService.closingEntries companyId x v (RolloverService.closingDay asOf)
        ((db.closeAccounts companyId (RolloverService.closingDay asOf) done).ledger.balance
          ⟨x.employeeId, x.policyId⟩ (some (RolloverService.closingDay asOf))))

/-- An entry after an operation was there before, or the operation posted it. -/
theorem Effect.posted {dir : Directory} {db db' : Db} {op : Op} (h : Effect dir db op db') :
    ∀ e ∈ db'.ledger.rows, e ∈ db.ledger.rows ∨ Posted dir db op e := by
  -- the postings of a job, whatever the job
  have hjob : ∀ {ps : List Posting}, op.postings dir db.catalog = .ok ps →
      ∀ e ∈ (db.postAccruals ps).ledger.rows, e ∈ db.ledger.rows ∨ Posted dir db op e := by
    intro ps hplan e he
    refine (Db.mem_postAccruals he).imp_right fun hnew => ?_
    obtain ⟨done, p, rest, rfl, hposts⟩ := hnew
    exact .accrual hplan hposts
  cases h with
  | catalog => exact fun e he => Or.inl he
  | submit =>
    intro e he
    rw [Db.afterSubmit_ledger] at he
    exact Or.inl he
  | @decide actor id approve note r v hfind =>
    intro e he
    obtain ⟨hr, rfl⟩ := Table.find?_eq_some.mp hfind
    rw [Db.afterDecide_ledger] at he
    simp only [Db.afterDebits] at he
    split at he
    · next happroved =>
      exact (Db.mem_posts he).imp_right (.debit (by rw [happroved.1]) hr)
    · exact Or.inl he
  | @cancel actor id today r hfind =>
    intro e he
    obtain ⟨hr, rfl⟩ := Table.find?_eq_some.mp hfind
    rw [Db.afterCancel_ledger] at he
    split at he
    · exact Or.inl he
    · exact (Db.mem_posts he).imp_right (.reversal rfl hr)
  | runScheduled hplan => exact hjob hplan
  | onPayrollProcessed hplan => exact hjob hplan
  | @rollover companyId asOf outcome =>
    intro e he
    refine (Db.mem_closeAccounts he).imp_right fun hnew => ?_
    obtain ⟨done, x, rest, v, hx, hv, hkind, hmem⟩ := hnew
    exact .closing rfl hx hv hkind hmem

/-- What holds of the accrual entries before an operation, and of everything its
postings can post, holds of the accrual entries after it. -/
theorem LedgerEffect.accrualEntries {dir : Directory} {db db' : Db} {op : Op}
    {P : LedgerEntry → Prop} (h : LedgerEffect dir db op db')
    (hold : ∀ e ∈ db.ledger.rows, e.sourceType.IsAccrual → P e)
    (hpost : ∀ ps p e, op.postings dir db.catalog = .ok ps → p ∈ ps → p.Posts e → P e) :
    ∀ e ∈ db'.ledger.rows, e.sourceType.IsAccrual → P e := by
  intro e he htype
  cases h with
  | accrual ps hplan hledger =>
    obtain ⟨es, heq, hes⟩ := Db.postAccruals_eq_posts ps db
    rw [hledger, heq] at he
    rcases Db.mem_posts he with hmem | hnew
    · exact hold e hmem htype
    · obtain ⟨p, hp, hposts⟩ := hes e hnew
      exact hpost ps p e hplan hp hposts
  | other es hes hledger =>
    rw [hledger] at he
    rcases Db.mem_posts he with hmem | hnew
    · exact hold e hmem htype
    · exact absurd htype (hes e hnew)

/-- Every credit of a job is in the ledger afterwards. -/
theorem Db.has_credit_postAccruals {db : Db} {ps : List Posting} {p : Posting} (hp : p ∈ ps) :
    Table.Has (db.postAccruals ps).ledger p.credit.key := by
  induction ps generalizing db with
  | nil => cases hp
  | cons q qs ih =>
    rw [postAccruals_cons]
    rcases List.mem_cons.mp hp with rfl | hp
    · obtain ⟨es, heq, -⟩ := postAccruals_eq_posts qs (db.postAccrual p)
      rw [heq, has_ledger_posts, postAccrual_eq_posts, has_ledger_posts]
      exact Or.inl (Or.inr ⟨p.credit, List.mem_cons_self .., rfl⟩)
    · exact ih hp

/-- The catalog changes by its own operations only. -/
theorem Effect.catalog_eq {dir : Directory} {db db' : Db} {op : Op} (h : Effect dir db op db')
    (hop : ¬ op.Edits) : db'.catalog = db.catalog := by
  cases h with
  | catalog => exact absurd trivial hop
  | submit => exact Db.afterSubmit_catalog
  | decide => exact Db.afterDecide_catalog
  | cancel => exact Db.afterCancel_catalog
  | runScheduled => exact Db.postAccruals_catalog _ db
  | onPayrollProcessed => exact Db.postAccruals_catalog _ db
  | rollover => exact Db.closeAccounts_catalog ..

/-- Entries stay. -/
theorem Db.subset_posts (es : List LedgerEntry) (db : Db) :
    db.ledger.rows ⊆ (db.posts es).ledger.rows := by
  obtain ⟨new, hnew⟩ := Db.posts_rows es db
  rw [hnew]
  exact List.subset_append_left _ _

theorem Db.subset_postAccruals (ps : List Posting) (db : Db) :
    db.ledger.rows ⊆ (db.postAccruals ps).ledger.rows := by
  obtain ⟨es, heq, -⟩ := Db.postAccruals_eq_posts ps db
  rw [heq]
  exact Db.subset_posts es db

/-- So entries stay over every step. -/
theorem LedgerEffect.subset {dir : Directory} {db db' : Db} {op : Op}
    (h : LedgerEffect dir db op db') : db.ledger.rows ⊆ db'.ledger.rows := by
  cases h with
  | accrual ps _ hledger =>
    rw [hledger]
    exact Db.subset_postAccruals ps db
  | other es _ hledger =>
    rw [hledger]
    exact Db.subset_posts es db

theorem Run.ledger_subset {dir : Directory} {db₀ db : Db} {l : List (Db × Op × Db)}
    (h : Run dir db₀ l db) : ∀ x ∈ l, x.2.2.ledger.rows ⊆ db.ledger.rows :=
  Trail.rel_last (R := fun db db' => db.ledger.rows ⊆ db'.ledger.rows) h
    (fun _ => List.Subset.refl _) List.Subset.trans
    (fun hstep => (effect_of_step hstep).onLedger.subset)

/-! ## Sources of credits and losses

A posting inserts its credit before the loss, so where the source of a loss is
taken, that of its credit is. -/

/-- The source of a cap loss is only taken when that of its credit is. -/
def LossesCredited (ledger : Ledger) : Prop :=
  ∀ t s, SourceType.IsAccrual t → Table.Has ledger (t, s ++ ":forfeiture") →
    Table.Has ledger (t, s)

/-- No source is taken yet. -/
theorem lossesCredited_empty : LossesCredited Db.empty.ledger := fun _ _ _ h => by cases h

/-- A posting enters its credit first. -/
theorem LossesCredited.postAccrual {c : Catalog} {db : Db} {p : Posting}
    (h : LossesCredited db.ledger) (hp : p.Issued c) :
    LossesCredited (db.postAccrual p).ledger := by
  intro t s ht hhas
  rw [Db.postAccrual_eq_posts, Db.has_ledger_posts] at hhas ⊢
  rcases hhas with hold | ⟨e, he, hkey⟩
  · exact Or.inl (h t s ht hold)
  · obtain ⟨htype, hid⟩ := Prod.mk.inj hkey
    rcases p.posts_of_mem he with rfl | ⟨cap, -, forfeited, -, rfl⟩
    · exact absurd hid (hp.plain s)
    · have hs : p.sourceId = s := (String.append_left_inj _).mp hid
      exact Or.inr ⟨p.credit, List.mem_cons_self .., Prod.ext htype hs⟩

/-- And nothing else enters a loss. -/
theorem LossesCredited.step {dir : Directory} {db db' : Db} {op : Op}
    (h : LossesCredited db.ledger) (heffect : LedgerEffect dir db op db') :
    LossesCredited db'.ledger := by
  cases heffect with
  | accrual ps hplan hledger =>
    rw [hledger]
    exact (Db.each_true ps db).invariant (I := fun db => LossesCredited db.ledger) h
      fun p hp _ hdb _ => hdb.postAccrual (issued_of_postings hplan hp)
  | other es hes hledger =>
    intro t s ht hhas
    rw [hledger, Db.has_ledger_posts] at hhas ⊢
    rcases hhas with hold | ⟨e, he, hkey⟩
    · exact Or.inl (h t s ht hold)
    · have htype : e.sourceType = t := (Prod.mk.inj hkey).1
      exact absurd (htype ▸ ht) (hes e he)

end TimeOff
